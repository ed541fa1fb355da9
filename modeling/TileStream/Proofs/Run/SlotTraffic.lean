import TileStream.Proofs.Memory.Registry
import TileStream.Proofs.Run.ChargedRun
import TileStream.Proofs.Run.Report

/-! # What the counters of the slots count

A transfer of the layer either passes the scratchpad by or takes a range of one
slot, and it takes this range on its packed side (`Uses`). The slots lie apart
and before the workspace, so the first region that such a range overlaps is the
region of its slot, and no other region counts it (`countsOn_slot`). Counting the
transfers of each slot (`hits_before`) then gives the counters of all nine
regions after a run (`slots_count_their_transfers`). -/
namespace TileStream

open Depthwise

/-! ## Sides and shares -/

namespace Descriptor

variable {d d' : Descriptor} {x : Access} {first : Nat}

/-- The side on which the bytes of a transfer lie one after the other. -/
def packedSide (d : Descriptor) : Access :=
  match d.direction with
  | .gather => .write
  | .scatter => .read

theorem start_packedSide (d : Descriptor) : d.start d.packedSide = d.loc := by
  unfold packedSide start destination
  cases d.direction <;> rfl

theorem start_of_ne (h : x ≠ d.packedSide) : d.start x = d.ext := by
  unfold packedSide at h
  unfold start destination
  cases x <;> cases hdir : d.direction <;> simp_all

theorem Part.packedSide_eq (h : d'.Part d first) : d'.packedSide = d.packedSide := by
  rw [packedSide, packedSide, h.direction]

/-- A part is packed inside the whole, and its other side lies in the same tier. -/
theorem Part.ends_eq (h : d'.Part d first) (hmoves : 0 < d'.byteCount) :
    d'.loc = ⟨d.loc.tier, d.loc.addr + first⟩ ∧ d'.ext.tier = d.ext.tier := by
  have hsource := h.source 0 hmoves
  have htarget := h.target 0 hmoves
  cases hdir : d.direction with
  | gather =>
    have hdir' : d'.direction = .gather := h.direction.trans hdir
    simp only [Descriptor.source, Descriptor.target, hdir, hdir'] at hsource htarget
    exact ⟨htarget, (Endpoint.mk.inj hsource).1⟩
  | scatter =>
    have hdir' : d'.direction = .scatter := h.direction.trans hdir
    simp only [Descriptor.source, Descriptor.target, hdir, hdir'] at hsource htarget
    exact ⟨hsource, (Endpoint.mk.inj htarget).1⟩

/-- A transfer that passes the scratchpad by. -/
def Passes (d : Descriptor) : Prop := d.ext.tier ≠ .scratchpad ∧ d.loc.tier ≠ .scratchpad

theorem Passes.start_tier (h : d.Passes) (x : Access) : (d.start x).tier ≠ .scratchpad := by
  by_cases hside : x = d.packedSide
  · rw [hside, d.start_packedSide]
    exact h.2
  · rw [start_of_ne hside]
    exact h.1

theorem Passes.countsOn_eq (h : d.Passes) (x : Access) (before : List Region) (r : Region) :
    d.countsOn x .scratchpad before r = false := by
  simp [countsOn, h.start_tier x]

theorem Passes.single (h : d.Passes) (rs : List Region) : d.Single .scratchpad rs :=
  fun x htier => absurd htier (h.start_tier x)

end Descriptor

/-! ## The regions of a layer -/

/-- The slots in the order in which they are registered. -/
def Role.slots : List (Role × Parity) := Role.all.flatMap fun role => [.a, .b].map fun p => (role, p)

theorem Role.mem_slots (slot : Role × Parity) : slot ∈ Role.slots := by
  obtain ⟨role, p⟩ := slot
  cases role <;> cases p <;> decide

namespace Job

variable {j : Job} {d d' w : Descriptor} {slot slot' : Role × Parity} {x y : Access}

/-- The region of a slot before the first transfer. -/
def slotRegion (j : Job) (slot : Role × Parity) : Region :=
  j.region (slot.1.name ++ "_" ++ slot.2.name, j.scratch.slot slot.1 slot.2,
    (j.scratch.slots slot.1).slotSize)

def workspaceRegion (j : Job) : Region :=
  j.region ("workspace", j.scratch.workspace.start, j.scratch.workspace.len)

theorem regions_eq (j : Job) :
    j.scratch.regions.map j.region = Role.slots.map j.slotRegion ++ [j.workspaceRegion] := rfl

theorem Accepted.regions_clear (h : j.Accepted) : (j.scratch.regions.map j.region).Pairwise
    fun r q => Region.Clear r.range q.range := by
  have hparts := h.scratch.parts_apart
  rw [← Scratch.regions_parts, List.pairwise_map] at hparts
  rw [List.pairwise_map]
  refine hparts.imp fun {p q} hapart => ?_
  unfold Apart at hapart
  simp only [Region.Clear, Region.range, region, Region.fresh, Unsigned.addSat]
  omega

theorem Accepted.slots_clear (h : j.Accepted) (hne : slot' ≠ slot) :
    Region.Clear (j.slotRegion slot').range (j.slotRegion slot).range := by
  have hclear := h.regions_clear
  rw [regions_eq] at hclear
  have hslots := List.pairwise_map.mp (List.pairwise_append.mp hclear).1
  have : Std.Symm fun a b => Region.Clear (j.slotRegion a).range (j.slotRegion b).range :=
    ⟨fun _ _ hsym => hsym.symm⟩
  exact hslots.forall (Role.mem_slots slot') (Role.mem_slots slot) hne

theorem Accepted.workspace_clear (h : j.Accepted) (slot : Role × Parity) :
    Region.Clear j.workspaceRegion.range (j.slotRegion slot).range := by
  have hclear := h.regions_clear
  rw [regions_eq] at hclear
  obtain ⟨-, -, hlast⟩ := List.pairwise_append.mp hclear
  exact (hlast _ (List.mem_map_of_mem (Role.mem_slots slot)) _ (List.mem_singleton_self _)).symm

/-- A transfer that is packed in a slot, and lies outside the scratchpad on its other side. -/
structure Uses (j : Job) (slot : Role × Parity) (d : Descriptor) : Prop where
  moves : 0 < d.byteCount
  far : d.ext.tier ≠ .scratchpad
  near : d.loc.tier = .scratchpad
  inside : ∀ p < d.byteCount, (j.slotRegion slot).contains (d.loc.addr + p)

/-- A range of a slot that begins at an offset of the slot. -/
theorem Accepted.uses_of_offset (h : j.Accepted) {role : Role} {p : Parity} {offset : Nat}
    (hmoves : 0 < d.byteCount) (hfar : d.ext.tier ≠ .scratchpad)
    (hloc : d.loc = j.padAt (j.scratch.slot role p + offset))
    (hfit : offset + d.byteCount ≤ (j.scratch.slots role).slotSize) : j.Uses (role, p) d := by
  have hlow := h.slot_low role p
  refine ⟨hmoves, hfar, by rw [hloc]; rfl, fun n hn => ?_⟩
  rw [hloc]
  simp only [Region.contains, Bool.and_eq_true, decide_eq_true_eq]
  simp only [Region.stop, slotRegion, region, Region.fresh, padAt, Unsigned.addSat, wordLimit] at hlow ⊢
  omega

theorem Uses.part (h : j.Uses slot w) {first : Nat} (hpart : d.Part w first) (hmoves : 0 < d.byteCount) :
    j.Uses slot d := by
  obtain ⟨hloc, hext⟩ := hpart.ends_eq hmoves
  refine ⟨hmoves, hext ▸ h.far, by rw [hloc]; exact h.near, fun p hp => ?_⟩
  have hwithin := hpart.within
  rw [hloc]
  show (j.slotRegion slot).contains (w.loc.addr + first + p)
  rw [Nat.add_assoc]
  exact h.inside (first + p) (by omega)

theorem Uses.piece {run m ms o os units : Nat} (h : j.Uses slot w) (hboxed : w.Boxed run m ms o os)
    (hd : d ∈ w.pieces units) : j.Uses slot d ∧ d.packedSide = w.packedSide := by
  obtain ⟨u, hu, hshare⟩ := List.mem_flatMap.mp hd
  obtain ⟨hindex, hsize⟩ := Member.mem_team.mp hu
  obtain ⟨hbox, -, hpart⟩ := hboxed.share_part (by omega) (Option.mem_toList.mp hshare)
  exact ⟨h.part hpart hbox.bytes_pos, hpart.packedSide_eq⟩

/-! ## Which region counts a transfer -/

/-- **A range inside a slot overlaps the region of this slot and no other.** -/
theorem Accepted.overlaps_slot (h : j.Accepted) (hu : j.Uses slot d) :
    (j.slotRegion slot').overlaps d.loc.addr d.byteCount = decide (slot' = slot) := by
  by_cases heq : slot' = slot
  · rw [heq, decide_eq_true rfl]
    exact Region.overlaps_of_contains hu.moves hu.inside
  · rw [decide_eq_false heq]
    exact (h.slots_clear heq).not_overlaps hu.moves hu.inside

theorem Accepted.overlaps_workspace (h : j.Accepted) (hu : j.Uses slot d) :
    j.workspaceRegion.overlaps d.loc.addr d.byteCount = false :=
  (h.workspace_clear slot).not_overlaps hu.moves hu.inside

/-- A transfer is counted on its packed side, by the region of its slot. -/
theorem Accepted.countsOn_slot (h : j.Accepted) (hu : j.Uses slot d) (x : Access)
    (slot' : Role × Parity) : d.countsOn x .scratchpad [] (j.slotRegion slot') =
      decide (x = d.packedSide ∧ slot' = slot) := by
  by_cases hside : x = d.packedSide
  · simp [Descriptor.countsOn, hside, Descriptor.start_packedSide, hu.near, h.overlaps_slot hu]
  · simp [Descriptor.countsOn, hside, Descriptor.start_of_ne hside, hu.far]

theorem Accepted.countsOn_workspace (h : j.Accepted) (hu : j.Uses slot d) (x : Access) :
    d.countsOn x .scratchpad [] j.workspaceRegion = false := by
  by_cases hside : x = d.packedSide
  · simp [Descriptor.countsOn, hside, Descriptor.start_packedSide, h.overlaps_workspace hu]
  · simp [Descriptor.countsOn, Descriptor.start_of_ne hside, hu.far]

/-- A transfer that uses a slot overlaps one region at most. -/
theorem Accepted.single_of_uses (h : j.Accepted) (hu : j.Uses slot d) :
    d.Single .scratchpad (j.scratch.regions.map j.region) := by
  intro x htier
  have hside : x = d.packedSide := by
    by_contra hne
    rw [Descriptor.start_of_ne hne] at htier
    exact hu.far htier
  have hdistinct : Role.slots.Pairwise (· ≠ ·) := by decide
  rw [hside, d.start_packedSide, regions_eq, List.pairwise_append, List.pairwise_map]
  refine ⟨hdistinct.imp fun hne => ?_, List.pairwise_singleton _ _, ?_⟩
  · rw [h.overlaps_slot hu, h.overlaps_slot hu, decide_eq_true_eq, decide_eq_true_eq]
    rintro rfl rfl
    exact hne rfl
  · rintro r - q hq -
    rw [List.mem_singleton.mp hq, h.overlaps_workspace hu]
    exact Bool.false_ne_true

/-! ## The transfers of a layer -/

theorem Accepted.inputLoad_uses (h : j.Accepted) {k : Nat} (hk : k < j.tileCount) :
    j.Uses (.input, .of k) (j.inputLoad k) := by
  obtain ⟨hboxed, hfit⟩ := h.inputLoad_boxed hk
  exact h.uses_of_offset hboxed.bytes_pos nofun rfl (by rw [Nat.zero_add]; exact hfit)

theorem Accepted.outputStore_uses (h : j.Accepted) {k : Nat} (hk : k < j.tileCount) :
    j.Uses (.output, .of k) (j.outputStore k) := by
  obtain ⟨hboxed, hfit⟩ := h.outputStore_boxed hk
  exact h.uses_of_offset hboxed.bytes_pos nofun rfl (by rw [Nat.zero_add]; exact hfit)

section Block

variable {b : Nat}

theorem Accepted.tapLoad_uses (h : j.Accepted) (hb : b < j.geometry.tileGrid.channels) :
    j.Uses (.weights, .of b) (j.tapLoad b) := by
  obtain ⟨hboxed, -, hfit⟩ := h.tapLoad_boxed hb
  exact h.uses_of_offset hboxed.bytes_pos nofun rfl (by rw [Nat.zero_add]; exact hfit)

/-- Multipliers and biases take one half each of what a requant slot has room for. -/
theorem Accepted.wordLoad_uses (h : j.Accepted) (hb : b < j.geometry.tileGrid.channels) (array : Nat)
    {offset : Nat} (hoffset : offset ≤ j.scratch.biasOffset) :
    j.Uses (.requant, .of b) (j.wordLoad array (j.scratch.slot .requant (.of b) + offset) b) := by
  obtain ⟨hpos, hle, -⟩ := h.chanLen_facts hb
  have hsize := h.scratch.requant_size
  have hbias := h.scratch.bias
  have hbytes := j.wordLoad_bytes array (j.scratch.slot .requant (.of b) + offset) b
  refine h.uses_of_offset (by omega) nofun rfl ?_
  rw [hbytes]
  show _ ≤ j.scratch.requant.slotSize
  omega

end Block

/-- The transfers that bring multipliers and biases of channel block `b`. -/
def requantLoads (j : Job) (b : Nat) : List Descriptor :=
  [j.wordLoad j.blob.kappa (j.scratch.kappaOffset (.of b)) b,
    j.wordLoad j.blob.lambda (j.scratch.lambdaOffset (.of b)) b]

theorem weightLoads_eq (j : Job) (b : Nat) : j.weightLoads b = [j.tapLoad b] ++ j.requantLoads b := rfl

theorem Accepted.inputs_use (h : j.Accepted) : ∀ k ∈ List.range j.tileCount,
    ∀ d ∈ (j.inputLoad k).pieces j.settings.units, j.Uses (.input, .of k) d ∧ d.packedSide = .write :=
  fun _ hk _ hd => (h.inputLoad_uses (List.mem_range.mp hk)).piece
    (h.inputLoad_boxed (List.mem_range.mp hk)).1 hd

theorem Accepted.outputs_use (h : j.Accepted) : ∀ k ∈ List.range j.tileCount,
    ∀ d ∈ (j.outputStore k).pieces j.settings.units, j.Uses (.output, .of k) d ∧ d.packedSide = .read :=
  fun _ hk _ hd => (h.outputStore_uses (List.mem_range.mp hk)).piece
    (h.outputStore_boxed (List.mem_range.mp hk)).1 hd

theorem Accepted.taps_use (h : j.Accepted) : ∀ b ∈ List.range j.geometry.tileGrid.channels,
    ∀ d ∈ [j.tapLoad b], j.Uses (.weights, .of b) d ∧ d.packedSide = .write := by
  intro b hb d hd
  rw [List.mem_singleton.mp hd]
  exact ⟨h.tapLoad_uses (List.mem_range.mp hb), rfl⟩

theorem Accepted.requants_use (h : j.Accepted) : ∀ b ∈ List.range j.geometry.tileGrid.channels,
    ∀ d ∈ j.requantLoads b, j.Uses (.requant, .of b) d ∧ d.packedSide = .write := by
  intro b hb d hd
  have hb := List.mem_range.mp hb
  rcases List.mem_cons.mp hd with rfl | hd
  · exact ⟨h.wordLoad_uses hb _ (Nat.zero_le _), rfl⟩
  · rw [List.mem_singleton.mp hd]
    exact ⟨h.wordLoad_uses hb _ (Nat.le_refl _), rfl⟩

theorem passes_of_staged {ph : Phase} : ∀ d ∈ j.staged ph, d.Passes := by
  have hcopies : ∀ d ∈ [j.inputStage, j.stageWeights, j.outputStage], d.Passes := by
    simp [Descriptor.Passes, inputStage, stageWeights, outputStage, staging]
  intro d hd
  refine hcopies d ?_
  unfold staged at hd
  split at hd
  · split at hd
    · cases hd
    · exact hd
    · exact List.mem_append_left [j.outputStage] hd
  · cases hd

/-- What a run transfers, group by group. -/
theorem before_finished (j : Job) : j.before .finished = j.staged .finished ++ j.inputs j.tileCount ++
    j.weights j.geometry.tileGrid.channels ++ j.outputs j.tileCount := rfl

/-- A transfer of the layer uses one slot or passes the scratchpad by. -/
theorem Accepted.before_cases (h : j.Accepted) (hd : d ∈ j.before .finished) :
    d.Passes ∨ ∃ slot, j.Uses slot d := by
  rw [before_finished, List.mem_append, List.mem_append, List.mem_append] at hd
  rcases hd with ((hstaged | hinput) | hweights) | houtput
  · exact .inl (passes_of_staged d hstaged)
  · obtain ⟨k, hk, hd⟩ := List.mem_flatMap.mp hinput
    exact .inr ⟨_, (h.inputs_use k hk d hd).1⟩
  · obtain ⟨b, hb, hd⟩ := List.mem_flatMap.mp hweights
    rcases List.mem_append.mp (j.weightLoads_eq b ▸ hd) with htap | hrequant
    · exact .inr ⟨_, (h.taps_use b hb d htap).1⟩
    · exact .inr ⟨_, (h.requants_use b hb d hrequant).1⟩
  · obtain ⟨k, hk, hd⟩ := List.mem_flatMap.mp houtput
    exact .inr ⟨_, (h.outputs_use k hk d hd).1⟩

/-! ## Counting -/

/-- How often some transfers are counted for a slot. -/
def hits (j : Job) (x : Access) (slot : Role × Parity) (ds : List Descriptor) : Nat :=
  ds.countP (·.countsOn x .scratchpad [] (j.slotRegion slot))

theorem hits_append (x : Access) (slot : Role × Parity) (ds es : List Descriptor) :
    j.hits x slot (ds ++ es) = j.hits x slot ds + j.hits x slot es := List.countP_append

theorem hits_of_passes {ds : List Descriptor} (hds : ∀ d ∈ ds, d.Passes) (x : Access)
    (slot : Role × Parity) : j.hits x slot ds = 0 := by
  refine List.countP_eq_zero.mpr fun d hd => ?_
  rw [(hds d hd).countsOn_eq]
  exact Bool.false_ne_true

/-- Transfers that use one slot with the same side are all counted there, and nowhere else. -/
theorem Accepted.hits_of_uses (h : j.Accepted) {ds : List Descriptor}
    (hds : ∀ d ∈ ds, j.Uses slot d ∧ d.packedSide = y) (x : Access) (slot' : Role × Parity) :
    j.hits x slot' ds = if x = y ∧ slot' = slot then ds.length else 0 := by
  have hcounts : ∀ d ∈ ds, d.countsOn x .scratchpad [] (j.slotRegion slot') =
      decide (x = y ∧ slot' = slot) := by
    intro d hd
    obtain ⟨hu, hside⟩ := hds d hd
    rw [h.countsOn_slot hu, hside]
  rw [hits, List.countP_congr fun d hd => by rw [hcounts d hd]]
  split <;> rename_i hhit <;> simp [hhit]

/-- Transfers that use the slots of one role in turn are counted for each parity. -/
theorem Accepted.hits_flatMap (h : j.Accepted) {role : Role} {l : List Nat} {f : Nat → List Descriptor}
    (hf : ∀ k ∈ l, ∀ d ∈ f k, j.Uses (role, .of k) d ∧ d.packedSide = y) (x : Access) (role' : Role)
    (p : Parity) : j.hits x (role', p) (l.flatMap f) = if x = y ∧ role' = role then
      ((l.filter (Parity.of · = p)).map fun k => (f k).length).sum else 0 := by
  induction l with
  | nil => simp [hits]
  | cons k l ih =>
    have hfirst := h.hits_of_uses (hf k List.mem_cons_self) x (role', p)
    have hrest := ih fun k' hk' => hf k' (List.mem_cons_of_mem k hk')
    rw [List.flatMap_cons, hits_append, hfirst, hrest, List.filter_cons]
    by_cases hp : Parity.of k = p
    · by_cases hhit : x = y ∧ role' = role <;> simp [hp, hhit]
    · by_cases hhit : x = y ∧ role' = role <;> simp [hp, hhit, Ne.symm hp]

/-- The shares that are not empty of the transfers of the tiles with one parity. -/
def sharesOf (j : Job) (transfer : Nat → Descriptor) (p : Parity) : Nat :=
  (((List.range j.tileCount).filter (Parity.of · = p)).map fun k =>
    (transfer k).shareCount j.settings.units).sum

/-- The channel blocks with one parity. -/
def blocksOf (j : Job) (p : Parity) : Nat :=
  (List.range j.geometry.tileGrid.channels).countP (Parity.of · = p)

/-- The transfers that a run makes into a slot or out of it. -/
def slotTraffic (j : Job) : Access → Role → Parity → Nat
  | .write, .input, p => j.sharesOf j.inputLoad p
  | .write, .weights, p => j.blocksOf p
  | .write, .requant, p => 2 * j.blocksOf p
  | .read, .output, p => j.sharesOf j.outputStore p
  | _, _, _ => 0

theorem sharesOf_eq {transfer : Nat → Descriptor} (hsplit : ∀ k < j.tileCount,
    ∀ u ∈ Member.team j.settings.units,
      (transfer k).split u.index u.size = .ok ((transfer k).share u.index u.size)) (p : Parity) :
    (((List.range j.tileCount).filter (Parity.of · = p)).map fun k =>
      ((transfer k).pieces j.settings.units).length).sum = j.sharesOf transfer p := by
  refine congrArg List.sum (List.map_congr_left fun k hk => ?_)
  have hk := List.mem_range.mp (List.mem_filter.mp hk).1
  exact Descriptor.length_pieces (hsplit k hk)

theorem Accepted.hits_weights (h : j.Accepted) (x : Access) (role : Role) (p : Parity) :
    j.hits x (role, p) (j.weights j.geometry.tileGrid.channels) =
      (if x = .write ∧ role = .weights then j.blocksOf p else 0) +
        if x = .write ∧ role = .requant then 2 * j.blocksOf p else 0 := by
  -- the loads of a block use the slots of two roles, so they are sorted by role before they are counted
  have hgroups : (j.weights j.geometry.tileGrid.channels).Perm
      ((List.range j.geometry.tileGrid.channels).flatMap (fun b => [j.tapLoad b]) ++
        (List.range j.geometry.tileGrid.channels).flatMap j.requantLoads) :=
    (List.flatMap_append_perm _ (fun b => [j.tapLoad b]) j.requantLoads).symm
  have hone : ∀ l : List Nat, (l.map fun b => [j.tapLoad b].length).sum = l.length := by
    intro l
    simp
  have htwo : ∀ l : List Nat, (l.map fun b => (j.requantLoads b).length).sum = 2 * l.length := by
    intro l
    simp [requantLoads, Nat.mul_comm]
  have hsplit : j.hits x (role, p) (j.weights j.geometry.tileGrid.channels) = _ := hgroups.countP_eq _
  refine hsplit.trans ((hits_append x (role, p) _ _).trans ?_)
  rw [h.hits_flatMap h.taps_use, h.hits_flatMap h.requants_use, hone, htwo, blocksOf,
    List.countP_eq_length_filter]

/-- **How often a run uses a slot.** -/
theorem Accepted.hits_before (h : j.Accepted) (x : Access) (role : Role) (p : Parity) :
    j.hits x (role, p) (j.before .finished) = j.slotTraffic x role p := by
  have hinputs := h.hits_flatMap h.inputs_use x role p
  have houtputs := h.hits_flatMap h.outputs_use x role p
  rw [sharesOf_eq fun k hk u hu => h.split_inputLoad hk hu] at hinputs
  rw [sharesOf_eq fun k hk u hu => h.split_outputStore hk hu] at houtputs
  rw [before_finished, hits_append, hits_append, hits_append, hits_of_passes passes_of_staged, inputs,
    outputs, hinputs, houtputs, h.hits_weights]
  cases x <;> cases role <;> simp [slotTraffic]

/-- The region of a slot after a run, and that of the workspace. -/
theorem Accepted.charged_slot (h : j.Accepted) {gone : List Descriptor}
    (hgone : gone.Perm (j.before .finished)) (slot : Role × Parity) :
    gone.foldl (Descriptor.chargeBoth .scratchpad []) (j.slotRegion slot) = { j.slotRegion slot with
      reads := j.slotTraffic .read slot.1 slot.2
      writes := j.slotTraffic .write slot.1 slot.2 } := by
  have hcounted : ∀ x, gone.countP (·.countsOn x .scratchpad [] (j.slotRegion slot)) =
      j.slotTraffic x slot.1 slot.2 :=
    fun x => (hgone.countP_eq _).trans (h.hits_before x slot.1 slot.2)
  rw [Descriptor.foldl_chargeBoth_eq, hcounted, hcounted]
  simp [slotRegion, region, Region.fresh]

theorem Accepted.charged_workspace (h : j.Accepted) {gone : List Descriptor}
    (hgone : gone.Perm (j.before .finished)) :
    gone.foldl (Descriptor.chargeBoth .scratchpad []) j.workspaceRegion = j.workspaceRegion := by
  have hcounted : ∀ x, gone.countP (·.countsOn x .scratchpad [] j.workspaceRegion) = 0 := by
    intro x
    refine List.countP_eq_zero.mpr fun d hd => ?_
    rcases h.before_cases (hgone.mem_iff.mp hd) with hpasses | ⟨slot, hu⟩
    · rw [hpasses.countsOn_eq]
      exact Bool.false_ne_true
    · rw [h.countsOn_workspace hu]
      exact Bool.false_ne_true
  rw [Descriptor.foldl_chargeBoth_eq, hcounted, hcounted]
  rfl

/-- The regions of the scratchpad when a layer has been computed: both slots of each role with the
transfers that have used them, and the workspace that nothing has used. -/
def finalRegions (j : Job) : List Region :=
  (Role.slots.map fun (role, p) => {
    name := role.name ++ "_" ++ p.name
    base := j.params.localBase.toNat + j.scratch.slot role p
    size := (j.scratch.slots role).slotSize
    reads := j.slotTraffic .read role p
    writes := j.slotTraffic .write role p }) ++
  [⟨"workspace", j.params.localBase.toNat + j.scratch.workspace.start, j.scratch.workspace.len, 0, 0⟩]

/-- **The regions of a reserved scratchpad when the team has finished**, in whichever order its units went
on. -/
theorem Accepted.regions_of_finished (h : j.Accepted) {kernel : Kernel} (hkernel : kernel.KeepsRegions)
    {c c₁ : Cluster} {s : TeamState}
    (hreserved : Cluster.onMemory (Memory.onBank .scratchpad j.reserve) c = .ok (.ok ()) c₁)
    (hreach : j.Reaches kernel (j.started c₁) s) (hfinished : s.Finished) :
    s.device.memory.scratchpad.regions = j.finalRegions := by
  obtain ⟨gone, hgone, hregions⟩ := h.charged_of_reserved hkernel hreserved hreach hfinished
  have hsingle : ∀ d ∈ gone, d.Single .scratchpad (j.scratch.regions.map j.region) := by
    intro d hd
    rcases h.before_cases (hgone.mem_iff.mp hd) with hpasses | ⟨slot, hu⟩
    · exact hpasses.single _
    · exact h.single_of_uses hu
  refine hregions.trans ?_
  rw [Descriptor.foldl_chargeAll_of_single hsingle, regions_eq, List.map_append, List.map_map,
    List.map_singleton, h.charged_workspace hgone]
  refine congrArg (· ++ [j.workspaceRegion]) ?_
  exact List.map_congr_left fun slot _ => h.charged_slot hgone slot

end Job

/-- **What the counters of the scratchpad's regions are after a run.** Let a layer of bounded size be
accepted, for a team, a queue and a scratchpad of any size. Once the scratchpad of a cluster, whatever it
held, has been reserved and the units have finished with the depthwise kernel, in whichever order they went
on, it has nine regions: both slots of each role, and the workspace. The input slot of a parity has been
written once for each share of the input tiles of this parity that is not empty, and the output slot read
once for each such share of the output tiles; the weights slot has been written once for each channel block
of this parity and the requant slot twice. No region has counted anything else. So it is after every run
that reports. -/
theorem slots_count_their_transfers {g : Geometry} {words : List UInt32} {settings : Settings} {j : Job}
    (haccepted : (Job.ofWords g words settings).run = .ok (.ok j)) (hbounded : j.Bounded) :
    j.Made g words settings ∧ j.Measured ∧
    (∀ c c₁ start s, Cluster.onMemory (Memory.onBank .scratchpad j.reserve) c = .ok (.ok ()) c₁ →
      j.teamStart c₁ = .ok start → j.Reaches kernel start s → s.Finished →
        s.device.memory.scratchpad.regions = j.finalRegions) ∧
    ∀ c report c', j.run kernel c = .ok (.ok report) c' →
      c'.device.memory.scratchpad.regions = j.finalRegions := by
  obtain ⟨hj, hmade⟩ := Job.accepted_of_ofWords haccepted hbounded
  refine ⟨hmade, hj.measured, ?_, ?_⟩
  · intro c c₁ start s hreserved hstart hreach hfinished
    cases (hj.teamStart_eq c₁).symm.trans hstart
    exact hj.regions_of_finished kernel_keepsRegions hreserved hreach hfinished
  · intro c report c' hrun
    obtain ⟨c₁, hreserved, hteam⟩ := Job.run_eq_ok.mp hrun
    obtain ⟨s, hreach, hfinished, rfl, -⟩ := hj.runTeam_inv hteam
    exact hj.regions_of_finished kernel_keepsRegions hreserved hreach hfinished

/-- The small layer: two units, eight tiles in two channel blocks. Half of the output tiles have one row
only, so that one unit has no share of them. -/
theorem slots_count_their_transfers_small : ∃ report c',
    smallJob.run kernel (.ofMemory (.empty 0x1000)) = .ok (.ok report) c' ∧
    c'.device.memory.scratchpad.regions.map (fun r => (r.name, r.reads, r.writes)) =
      [("input_a", 0, 8), ("input_b", 0, 8), ("weights_a", 0, 1), ("weights_b", 0, 1),
        ("output_a", 6, 0), ("output_b", 6, 0), ("requant_a", 0, 2), ("requant_b", 0, 2),
        ("workspace", 0, 0)] := by
  obtain ⟨hj, -⟩ := Job.sound_of_ofWords smallJob_accepted
    (show smallSettings.localCapacity ≤ 0x40000 by decide) smallJob_promised
  obtain ⟨report, c', hrun⟩ := hj.run_exists (c := .ofMemory (.empty 0x1000)) hj.finishes_depthwise
    smallMemory_holds (hj.room smallMemory_unread)
  obtain ⟨-, -, -, hregions⟩ := slots_count_their_transfers smallJob_accepted smallJob_promised.toBounded
  refine ⟨report, c', hrun, ?_⟩
  rw [hregions _ _ _ hrun]
  decide +kernel

end TileStream
