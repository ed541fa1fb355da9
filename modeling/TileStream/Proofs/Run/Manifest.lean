import Mathlib.Data.List.Perm.Basic
import TileStream.Proofs.Grid.Sums
import TileStream.Proofs.Run.Segments
import TileStream.Proofs.Transfer.InOrder

/-! # What a run transfers

`manifest` lists what the team submits in a phase, whichever unit submits it, and
`before` what it has submitted when a phase begins (`before_next`). In a whole run
this is the `cargo` of every payload (`filter_before`): the shares of all tiles,
the weights of every channel block once, and the bulk copies. -/
namespace TileStream

def bytesOf (ds : List Descriptor) : Nat := (ds.map Descriptor.byteCount).sum

theorem bytesOf_cons (d : Descriptor) (ds : List Descriptor) :
    bytesOf (d :: ds) = d.byteCount + bytesOf ds := rfl

theorem bytesOf_append (ds es : List Descriptor) :
    bytesOf (ds ++ es) = bytesOf ds + bytesOf es := by
  rw [bytesOf, List.map_append, List.sum_append]
  rfl

theorem bytesOf_flatMap {α : Type} (l : List α) (f : α → List Descriptor) :
    bytesOf (l.flatMap f) = (l.map fun a => bytesOf (f a)).sum := by
  induction l with
  | nil => rfl
  | cons a l ih => rw [List.flatMap_cons, bytesOf_append, ih, List.map_cons, List.sum_cons]

/-- The number and the bytes of some transfers. -/
def countOf (ds : List Descriptor) : Count := ⟨ds.length, bytesOf ds⟩

theorem tally_perm {p : Payload} {ds es : List Descriptor} (h : ds.Perm es) :
    tally p ds = tally p es := by
  have hfilter := h.filter (·.payload = p)
  rw [tally, tally, hfilter.length_eq, (hfilter.map _).sum_nat]

/-! ## Shares -/

/-- The shares in which a team divides a transfer. -/
def Descriptor.pieces (d : Descriptor) (units : Nat) : List Descriptor :=
  (Member.team units).flatMap fun u => (d.share u.index u.size).toList

namespace Descriptor

variable {d d' : Descriptor} {run m ms o os : Nat}

theorem share_payload {part parts : Nat} (h : d.share part parts = some d') :
    d'.payload = d.payload := by
  simp only [share] at h
  split at h
  · cases h
  · cases h
    rfl

theorem pieces_payload {units : Nat} (h : d' ∈ d.pieces units) : d'.payload = d.payload := by
  obtain ⟨u, -, hshare⟩ := List.mem_flatMap.mp h
  exact share_payload (Option.mem_toList.mp hshare)

theorem Boxed.bytesOf_share (h : d.Boxed run m ms o os) {part parts : Nat} (hpart : part < parts) :
    bytesOf (d.share part parts).toList =
      shareBlocks (max o 1) part parts * (run * max m 1) := by
  cases hshare : d.share part parts with
  | none =>
    have hsteps : d.shape.outer.steps = max o 1 := by rw [h.shape, (Shape.box_steps ..).2]
    have hpast : max o 1 ≤ part * blocks (max o 1) parts := by
      simp only [share, hsteps] at hshare
      split at hshare
      · assumption
      · cases hshare
    rw [shareBlocks, Nat.sub_eq_zero_of_le hpast, Nat.min_zero, Nat.zero_mul]
    rfl
  | some d' =>
    obtain ⟨hboxed, hpos, -⟩ := h.share_part hpart hshare
    have hbytes := hboxed.byteCount_eq
    rw [Nat.max_eq_left hpos, ← Nat.mul_assoc, Nat.mul_comm] at hbytes
    exact hbytes

/-- The shares of a transfer are as long as the transfer. -/
theorem Boxed.bytesOf_pieces (h : d.Boxed run m ms o os) (units : Nat) :
    bytesOf (d.pieces units) = d.byteCount := by
  have hshares : ∀ part ∈ List.range (max units 1),
      bytesOf (d.share part (max units 1)).toList =
        min (blocks (max o 1) (max units 1)) (max o 1 - part * blocks (max o 1) (max units 1)) *
          (run * max m 1) :=
    fun part hpart => h.bytesOf_share (List.mem_range.mp hpart)
  have hcover : max o 1 ≤ max units 1 * blocks (max o 1) (max units 1) := by
    rw [Nat.mul_comm]
    exact le_blocks_mul (by omega)
  rw [pieces, bytesOf_flatMap, Member.team, List.map_map]
  show ((List.range (max units 1)).map fun part => bytesOf (d.share part (max units 1)).toList).sum = _
  rw [List.map_congr_left hshares, List.sum_map_mul_right, sum_chunks, Nat.min_eq_right hcover,
    Nat.mul_comm, Nat.mul_assoc, h.byteCount_eq]

/-- The units of a team that get a share of a transfer. -/
def shareCount (d : Descriptor) (units : Nat) : Nat :=
  (Member.team units).countP fun u => d.split u.index u.size matches .ok (some _)

theorem length_pieces {units : Nat} (hsplit : ∀ u ∈ Member.team units,
    d.split u.index u.size = .ok (d.share u.index u.size)) :
    (d.pieces units).length = d.shareCount units := by
  unfold pieces shareCount
  generalize Member.team units = team at hsplit
  induction team with
  | nil => rfl
  | cons u team ih =>
    have hrest := ih fun v hv => hsplit v (List.mem_cons_of_mem u hv)
    rw [List.flatMap_cons, List.length_append, hrest, List.countP_cons, hsplit u List.mem_cons_self,
      Nat.add_comm]
    cases d.share u.index u.size <;> rfl

end Descriptor

namespace Member

theorem flatMap_shares (units : Nat) (ds : List Descriptor) :
    ((team units).flatMap fun u => u.shares ds).Perm (ds.flatMap (·.pieces units)) := by
  induction ds with
  | nil => simp [shares]
  | cons d ds ih =>
    exact (List.flatMap_append_perm (team units) _ _).symm.trans (ih.append_left _)

theorem flatMap_leads (units : Nat) (ds : List Descriptor) :
    ((team units).flatMap fun u => u.leads ds) = ds := by
  obtain ⟨n, hn⟩ : ∃ n, max units 1 = n + 1 := ⟨max units 1 - 1, by omega⟩
  have hothers : (List.range n).flatMap (fun i => leads ⟨i + 1, n + 1⟩ ds) = [] :=
    List.flatMap_eq_nil_iff.mpr fun _ _ => rfl
  rw [team, hn, List.flatMap_map, List.range_succ_eq_map, List.flatMap_cons, List.flatMap_map]
  exact (congrArg (ds ++ ·) hothers).trans (List.append_nil ds)

end Member

/-! ## Phases -/

namespace Job

variable {j : Job}

/-- What the team submits in a phase. -/
def manifest (j : Job) (ph : Phase) : List Descriptor :=
  (j.divided ph).flatMap (·.pieces j.settings.units) ++ j.led ph

theorem sends_perm_manifest (j : Job) (ph : Phase) :
    ((Member.team j.settings.units).flatMap fun u => j.sends u ph).Perm (j.manifest ph) := by
  have hsplit := List.flatMap_append_perm (Member.team j.settings.units)
    (fun u => u.shares (j.divided ph)) (fun u => u.leads (j.led ph))
  rw [Member.flatMap_leads] at hsplit
  exact hsplit.symm.trans ((Member.flatMap_shares _ _).append_right _)

/-- Dividing transfers leaves out no byte, and moves none twice. -/
theorem Accepted.bytesOf_manifest (h : j.Accepted) {ph : Phase} (hph : j.Valid ph) :
    bytesOf (j.manifest ph) = bytesOf (j.wholes ph) := by
  have hpieces : ∀ d ∈ j.divided ph,
      bytesOf (d.pieces j.settings.units) = d.byteCount := by
    intro d hd
    obtain ⟨run, m, ms, o, os, hboxed, -⟩ := h.divided_boxed hph hd
    exact hboxed.bytesOf_pieces _
  rw [manifest, wholes, bytesOf_append, bytesOf_append, bytesOf_flatMap,
    List.map_congr_left hpieces]
  rfl

/-! ## Up to a phase -/

/-- The shares of the first `n` input tiles. -/
def inputs (j : Job) (n : Nat) : List Descriptor :=
  (List.range n).flatMap fun k => (j.inputLoad k).pieces j.settings.units

/-- The weights of the first `n` channel blocks. -/
def weights (j : Job) (n : Nat) : List Descriptor := (List.range n).flatMap j.weightLoads

/-- The shares of the first `n` output tiles. -/
def outputs (j : Job) (n : Nat) : List Descriptor :=
  (List.range n).flatMap fun k => (j.outputStore k).pieces j.settings.units

/-- The input tiles that the team has fetched before a phase. -/
def loaded (j : Job) : Phase → Nat
  | .stageIn | .prologue => 0
  | .fetch i => min (i + 1) j.tileCount
  | .compute i => min (i + 2) j.tileCount
  | .stageOut | .finished => j.tileCount

/-- The channel blocks whose weights the team has fetched before a phase. -/
def supplied (j : Job) : Phase → Nat
  | .stageIn | .prologue => 0
  | .fetch i => j.geometry.tileGrid.weightsAt i + 1
  | .compute i => j.geometry.tileGrid.weightsAt (i + 1) + 1
  | .stageOut | .finished => j.geometry.tileGrid.channels

/-- The bulk copies before a phase. -/
def staged (j : Job) (ph : Phase) : List Descriptor :=
  if j.params.slowIsExternal then
    match ph with
    | .stageIn => []
    | .finished => [j.inputStage, j.stageWeights, j.outputStage]
    | _ => [j.inputStage, j.stageWeights]
  else []

/-- What the team has submitted before a phase. -/
def before (j : Job) (ph : Phase) : List Descriptor :=
  j.staged ph ++ j.inputs (j.loaded ph) ++ j.weights (j.supplied ph) ++ j.outputs (j.written ph)

theorem inputs_succ (j : Job) (i : Nat) : j.inputs (min (i + 2) j.tileCount) =
    j.inputs (min (i + 1) j.tileCount) ++ (j.inputLoads i).flatMap (·.pieces j.settings.units) := by
  unfold inputLoads
  by_cases hnext : i + 1 < j.tileCount
  · rw [if_pos hnext, Nat.min_eq_left hnext, Nat.min_eq_left (Nat.le_of_lt hnext),
      List.flatMap_singleton, inputs, List.range_succ, List.flatMap_append, List.flatMap_singleton]
    rfl
  · rw [if_neg hnext, Nat.min_eq_right (by omega), Nat.min_eq_right (by omega)]
    exact (List.append_nil _).symm

theorem outputs_succ (j : Job) (i : Nat) :
    j.outputs i = j.outputs (i - 1) ++ (j.stores i).flatMap (·.pieces j.settings.units) := by
  cases i with
  | zero => rfl
  | succ i =>
    rw [stores, List.flatMap_singleton, outputs, List.range_succ, List.flatMap_append,
      List.flatMap_singleton]
    rfl

theorem Accepted.weights_succ (h : j.Accepted) {i : Nat} (hi : i < j.tileCount) :
    j.weights (j.geometry.tileGrid.weightsAt (i + 1) + 1) =
      j.weights (j.geometry.tileGrid.weightsAt i + 1) ++ j.weightReloads i := by
  have hregular := Geometry.tileGrid_regular h.tiled h.small
  rw [Grid.weightsAt_succ hregular hi, Grid.weightsAt_of_lt hi, weightReloads]
  split
  · rename_i hchange
    have hblock : j.blockOf (i + 1) = j.geometry.tileGrid.blockAt i + 1 :=
      (Grid.blockAt_succ hregular i).resolve_left (changesAt_lt hchange).2
    rw [weights, List.range_succ, List.flatMap_append, List.flatMap_singleton, hblock]
    rfl
  · exact (List.append_nil _).symm

/-- A fetch adds to each group. -/
theorem perm_groups (staged inputs weights outputs stores loads reloads : List Descriptor) :
    (staged ++ (inputs ++ loads) ++ (weights ++ reloads) ++ (outputs ++ stores)).Perm
      (staged ++ inputs ++ weights ++ outputs ++ (stores ++ loads ++ reloads)) := by
  rw [List.perm_iff_count]
  intro d
  simp only [List.count_append]
  omega

theorem manifest_fetch (j : Job) (i : Nat) :
    j.manifest (.fetch i) = (j.stores i).flatMap (·.pieces j.settings.units) ++
      (j.inputLoads i).flatMap (·.pieces j.settings.units) ++ j.weightReloads i := by
  rw [manifest, divided, led, List.flatMap_append]

/-- The last fetch brings no weights. -/
theorem Accepted.weights_last (h : j.Accepted) : j.weights j.geometry.tileGrid.channels =
    j.weights (j.geometry.tileGrid.weightsAt j.tileCount + 1) ++ j.weightReloads j.tileCount := by
  have hregular := Geometry.tileGrid_regular h.tiled h.small
  have hpos := hregular.channels_pos
  have hstill : ¬ j.geometry.tileGrid.changesAt j.tileCount = true := fun hchange => by
    have := (changesAt_lt hchange).1
    omega
  rw [weightReloads, if_neg hstill, List.append_nil, tileCount, Grid.weightsAt_size hregular,
    Nat.sub_add_cancel hpos]

theorem staged_eq_nil (hext : j.params.slowIsExternal = false) (ph : Phase) : j.staged ph = [] :=
  if_neg (by simp [hext])

theorem staged_finished (hext : j.params.slowIsExternal = true) :
    j.staged .finished = j.staged .stageOut ++ [j.outputStage] := by
  simp [staged, hext]

theorem Accepted.before_fetch (h : j.Accepted) {i : Nat} (hi : i ≤ j.tileCount) :
    (j.before (j.nextPhase (.fetch i))).Perm (j.before (.fetch i) ++ j.manifest (.fetch i)) := by
  have hgroups := perm_groups (j.staged (.fetch i)) (j.inputs (min (i + 1) j.tileCount))
    (j.weights (j.geometry.tileGrid.weightsAt i + 1)) (j.outputs (i - 1))
    ((j.stores i).flatMap (·.pieces j.settings.units))
    ((j.inputLoads i).flatMap (·.pieces j.settings.units)) (j.weightReloads i)
  rw [← inputs_succ, ← outputs_succ, ← manifest_fetch] at hgroups
  rcases Nat.lt_or_eq_of_le hi with hlt | rfl
  · rw [← h.weights_succ hlt] at hgroups
    rw [nextPhase_fetch hlt]
    exact hgroups
  · rw [← h.weights_last, Nat.min_eq_right (Nat.le_add_right _ 2)] at hgroups
    rw [nextPhase_last]
    cases hext : j.params.slowIsExternal with
    | true => exact hgroups
    | false =>
      rw [staged_eq_nil hext] at hgroups
      rw [if_neg Bool.false_ne_true]
      simp only [before, staged_eq_nil hext] at hgroups ⊢
      exact hgroups

/-- **Every phase adds its manifest.** -/
theorem Accepted.before_next (h : j.Accepted) {ph : Phase} (hph : j.Valid ph)
    (hgoing : ph ≠ .finished) :
    (j.before (j.nextPhase ph)).Perm (j.before ph ++ j.manifest ph) := by
  cases ph with
  | stageIn =>
    have hext : j.params.slowIsExternal = true := hph
    simp [before, staged, hext, nextPhase, loaded, supplied, written, inputs, weights, outputs,
      manifest, divided, led]
  | prologue =>
    have hfirst : min 1 j.tileCount = 1 := Nat.min_eq_left h.tileCount_pos
    have hblock : j.blockOf 0 = 0 := Grid.blockAt_zero _
    simp [before, staged, nextPhase, loaded, supplied, written, inputs, weights, outputs, manifest,
      divided, led, hfirst, hblock, Grid.weightsAt, Grid.blockAt_zero]
  | fetch i => exact h.before_fetch hph
  | compute i =>
    have hnone : j.manifest (.compute i) = [] := rfl
    rw [hnone, List.append_nil]
    exact .refl _
  | stageOut =>
    show (j.staged .finished ++ j.inputs j.tileCount ++ j.weights j.geometry.tileGrid.channels ++
      j.outputs j.tileCount).Perm (j.staged .stageOut ++ j.inputs j.tileCount ++
        j.weights j.geometry.tileGrid.channels ++ j.outputs j.tileCount ++ [j.outputStage])
    rw [staged_finished hph, List.perm_iff_count]
    intro d
    simp only [List.count_append]
    omega
  | finished => exact absurd rfl hgoing

/-! ## The cargo of a run -/

/-- What a run transfers of each payload. -/
def cargo (j : Job) : Payload → List Descriptor
  | .input => j.inputs j.tileCount
  | .weights => (List.range j.geometry.tileGrid.channels).map j.tapLoad
  | .requant => (List.range j.geometry.tileGrid.channels).flatMap fun b =>
      [j.wordLoad j.blob.kappa (j.scratch.kappaOffset (.of b)) b,
        j.wordLoad j.blob.lambda (j.scratch.lambdaOffset (.of b)) b]
  | .output => j.outputs j.tileCount
  | .staging =>
    if j.params.slowIsExternal then [j.inputStage, j.stageWeights, j.outputStage] else []

theorem filter_payload {ds : List Descriptor} {q : Payload} (h : ∀ d ∈ ds, d.payload = q)
    (p : Payload) : ds.filter (·.payload = p) = if q = p then ds else [] := by
  by_cases hq : q = p
  · rw [if_pos hq, List.filter_eq_self]
    exact fun d hd => by simp [h d hd, hq]
  · rw [if_neg hq, List.filter_eq_nil_iff]
    exact fun d hd => by simp [h d hd, hq]

theorem pieces_range_payload {f : Nat → Descriptor} {q : Payload} (hf : ∀ k, (f k).payload = q)
    (n units : Nat) : ∀ d ∈ (List.range n).flatMap fun k => (f k).pieces units, d.payload = q := by
  intro d hd
  obtain ⟨k, -, hpiece⟩ := List.mem_flatMap.mp hd
  exact (Descriptor.pieces_payload hpiece).trans (hf k)

/-- **The payloads of a whole run.** -/
theorem filter_before (j : Job) (p : Payload) :
    (j.before .finished).filter (·.payload = p) = j.cargo p := by
  have hinputs : ∀ d ∈ j.inputs j.tileCount, d.payload = .input :=
    pieces_range_payload (f := j.inputLoad) (fun _ => rfl) _ _
  have houtputs : ∀ d ∈ j.outputs j.tileCount, d.payload = .output :=
    pieces_range_payload (f := j.outputStore) (fun _ => rfl) _ _
  have hstaged : ∀ d ∈ j.staged .finished, d.payload = .staging := by
    unfold staged
    split
    · simp [inputStage, stageWeights, outputStage, staging]
    · simp
  have hweights : (j.weights j.geometry.tileGrid.channels).filter (·.payload = p) =
      (List.range j.geometry.tileGrid.channels).flatMap fun b =>
        (j.weightLoads b).filter (·.payload = p) := List.filter_flatMap
  show (j.staged .finished ++ j.inputs j.tileCount ++ j.weights j.geometry.tileGrid.channels ++
    j.outputs j.tileCount).filter (·.payload = p) = _
  rw [List.filter_append, List.filter_append, List.filter_append, filter_payload hstaged,
    filter_payload hinputs, filter_payload houtputs, hweights]
  cases p <;> simp [cargo, staged, weightLoads, tapLoad, wordLoad, List.map_eq_flatMap]

theorem tally_before (j : Job) (p : Payload) :
    tally p (j.before .finished) = countOf (j.cargo p) := by
  simp only [tally, filter_before, countOf, bytesOf]

/-! ## How much that is -/

theorem Accepted.split_inputLoad (h : j.Accepted) {k : Nat} (hk : k < j.tileCount) {u : Member}
    (hu : u ∈ Member.team j.settings.units) :
    (j.inputLoad k).split u.index u.size = .ok ((j.inputLoad k).share u.index u.size) := by
  cases k with
  | zero => exact h.split_eq hu .prologue trivial (List.mem_singleton_self _)
  | succ i =>
    refine h.split_eq hu (.fetch i) (show i ≤ j.tileCount by omega) (List.mem_append_right _ ?_)
    rw [inputLoads, if_pos hk]
    exact List.mem_singleton_self _

theorem Accepted.split_outputStore (h : j.Accepted) {k : Nat} (hk : k < j.tileCount) {u : Member}
    (hu : u ∈ Member.team j.settings.units) :
    (j.outputStore k).split u.index u.size = .ok ((j.outputStore k).share u.index u.size) :=
  h.split_eq hu (.fetch (k + 1)) hk (List.mem_append_left _ (List.mem_singleton_self _))

theorem Accepted.count_input (h : j.Accepted) : countOf (j.cargo .input) =
    ⟨((List.range j.tileCount).map fun k => (j.inputLoad k).shareCount j.settings.units).sum,
      ((List.range j.tileCount).map fun k => (j.inputLoad k).byteCount).sum⟩ := by
  have hlength : ∀ k ∈ List.range j.tileCount, ((j.inputLoad k).pieces j.settings.units).length =
      (j.inputLoad k).shareCount j.settings.units := fun k hk =>
    Descriptor.length_pieces fun u hu => h.split_inputLoad (List.mem_range.mp hk) hu
  have hbytes : ∀ k ∈ List.range j.tileCount, bytesOf ((j.inputLoad k).pieces j.settings.units) =
      (j.inputLoad k).byteCount := fun k hk =>
    (h.inputLoad_boxed (List.mem_range.mp hk)).1.bytesOf_pieces _
  rw [cargo, inputs, countOf, List.length_flatMap, bytesOf_flatMap, List.map_congr_left hlength,
    List.map_congr_left hbytes]

/-- The output tiles are as long as the output tensor. -/
theorem Accepted.sum_outputStores (h : j.Accepted) :
    ((List.range j.tileCount).map fun k => (j.outputStore k).byteCount).sum = j.outputBytes := by
  have hbytes : ∀ k ∈ List.range j.tileCount, (j.outputStore k).byteCount = _ * (_ * _) :=
    fun k hk => (h.outputStore_bytes (List.mem_range.mp hk)).trans
      (congrArg _ (Nat.mul_comm _ _))
  rw [List.map_congr_left hbytes]
  exact Geometry.sum_outputTiles h.tiled h.small

theorem Accepted.count_output (h : j.Accepted) : countOf (j.cargo .output) =
    ⟨((List.range j.tileCount).map fun k => (j.outputStore k).shareCount j.settings.units).sum,
      j.outputBytes⟩ := by
  have hlength : ∀ k ∈ List.range j.tileCount, ((j.outputStore k).pieces j.settings.units).length =
      (j.outputStore k).shareCount j.settings.units := fun k hk =>
    Descriptor.length_pieces fun u hu => h.split_outputStore (List.mem_range.mp hk) hu
  have hbytes : ∀ k ∈ List.range j.tileCount, bytesOf ((j.outputStore k).pieces j.settings.units) =
      (j.outputStore k).byteCount := fun k hk =>
    (h.outputStore_boxed (List.mem_range.mp hk)).1.bytesOf_pieces _
  rw [cargo, outputs, countOf, List.length_flatMap, bytesOf_flatMap, List.map_congr_left hlength,
    List.map_congr_left hbytes, h.sum_outputStores]

/-- The channel blocks have all channels together. -/
theorem Accepted.sum_chanLen (h : j.Accepted) :
    ((List.range j.geometry.tileGrid.channels).map j.geometry.chanLen).sum =
      j.geometry.input.channels := sum_blocks _ h.tiled.block_pos

theorem Accepted.count_weights (h : j.Accepted) : countOf (j.cargo .weights) =
    ⟨j.geometry.tileGrid.channels, j.geometry.input.channels * j.taps⟩ := by
  have hbytes : ∀ b ∈ List.range j.geometry.tileGrid.channels,
      (j.tapLoad b).byteCount = j.geometry.chanLen b * j.taps :=
    fun b hb => (h.tapLoad_boxed (List.mem_range.mp hb)).2.1
  rw [cargo, countOf, List.length_map, List.length_range, bytesOf, List.map_map]
  show Count.mk _ ((List.range _).map fun b => (j.tapLoad b).byteCount).sum = _
  rw [List.map_congr_left hbytes, List.sum_map_mul_right, h.sum_chanLen]

theorem Accepted.count_requant (h : j.Accepted) : countOf (j.cargo .requant) =
    ⟨2 * j.geometry.tileGrid.channels, 8 * j.geometry.input.channels⟩ := by
  have hbytes : ∀ b, bytesOf
      [j.wordLoad j.blob.kappa (j.scratch.kappaOffset (.of b)) b,
        j.wordLoad j.blob.lambda (j.scratch.lambdaOffset (.of b)) b] = j.geometry.chanLen b * 8 := by
    intro b
    rw [bytesOf_cons, bytesOf_cons, wordLoad_bytes, wordLoad_bytes]
    show j.geometry.chanLen b * 4 + (j.geometry.chanLen b * 4 + 0) = _
    omega
  have hlength : (j.cargo .requant).length = 2 * j.geometry.tileGrid.channels := by
    rw [cargo, List.length_flatMap]
    show ((List.range _).map fun _ => 2).sum = _
    rw [List.map_const', List.sum_replicate_nat, List.length_range, Nat.mul_comm]
  rw [countOf, hlength]
  simp only [cargo, bytesOf_flatMap, hbytes]
  rw [List.sum_map_mul_right, h.sum_chanLen, Nat.mul_comm 8]

theorem Accepted.count_staging (h : j.Accepted) : countOf (j.cargo .staging) =
    if j.params.slowIsExternal then
      ⟨3, j.inputBytes + low32 j.blob.total + j.outputBytes⟩ else ⟨0, 0⟩ := by
  obtain ⟨hinput, houtput, hblob⟩ := h.staging_bytes
  rw [cargo]
  split
  · rw [countOf, bytesOf_cons, bytesOf_cons, bytesOf_cons, hinput, houtput, hblob, ← Nat.add_assoc]
    rfl
  · rfl

end Job

end TileStream
