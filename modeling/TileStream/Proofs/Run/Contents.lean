import TileStream.Proofs.Run.Segments

/-! # What the memory holds before each phase

`Ready` says what the bytes are before a phase begins, once the queue has been
retired: which tile is in which slot and which tiles are in the output tensor.
The transfers of a phase bring a byte of a tile from one place, in whatever order
their parts retire (`window_origin`, `weights_origin`, `store_origin`), so they
make memory ready for the next phase (`ready_next`). -/
namespace TileStream

/-- What a run aims at: the values that are good for a byte of the output tensor, and which unit
computes which byte of a tile. -/
structure Aim where
  good : Endpoint → UInt8 → Prop
  owner : Nat → Nat → Member

namespace Job

variable {j : Job} {x img : Image} {aim : Aim}

/-- The bytes once input and weights have been copied to mid memory. -/
def fed (j : Job) (img : Image) : Image :=
  if j.params.slowIsExternal then img.applyAll (j.led .stageIn) else img

def windowBytes (j : Job) (k : Nat) : Nat :=
  (j.geometry.chans (j.blockOf k)).len * ((j.geometry.inCols k).len * (j.geometry.inRows k).len)

/-- Input tensor and weight blob are as in `x`. -/
def SourcesIn (j : Job) (x img : Image) : Prop := ∀ e, j.InInput e ∨ j.InBlob e → img e = x e

/-- The slots of tile `k` hold its window and the weights of its channel block. -/
structure Loaded (j : Job) (x : Image) (k : Nat) (img : Image) : Prop where
  window : ∀ p < j.windowBytes k, img ((j.inputLoad k).target p) = x ((j.inputLoad k).source p)
  weights : ∀ w ∈ j.weightLoads (j.blockOf k), ∀ p < w.byteCount, img (w.target p) = x (w.source p)

/-- The output slot of tile `k` holds good values. -/
def Computed (j : Job) (aim : Aim) (k : Nat) (img : Image) : Prop :=
  ∀ p < (j.outputStore k).byteCount,
    aim.good ((j.outputStore k).target p) (img ((j.outputStore k).source p))

def Stored (j : Job) (aim : Aim) (k : Nat) (img : Image) : Prop :=
  ∀ p < (j.outputStore k).byteCount,
    aim.good ((j.outputStore k).target p) (img ((j.outputStore k).target p))

/-- Memory before tile `i - 1` is written back and tile `i + 1` is fetched. -/
structure Fetching (j : Job) (x : Image) (aim : Aim) (i : Nat) (img : Image) : Prop where
  sources : j.SourcesIn x img
  loaded : i < j.tileCount → j.Loaded x i img
  stored : ∀ k, k + 1 < i → j.Stored aim k img
  computed : ∀ k, k + 1 = i → j.Computed aim k img

/-- Memory before tile `i` is computed. -/
structure Computing (j : Job) (x : Image) (aim : Aim) (i : Nat) (img : Image) : Prop where
  sources : j.SourcesIn x img
  loaded : j.Loaded x i img
  next : i + 1 < j.tileCount → j.Loaded x (i + 1) img
  stored : ∀ k < i, j.Stored aim k img

/-- Where byte `o` of the output tensor is in the end. -/
def outputAt (j : Job) (o : Nat) : Endpoint :=
  if j.params.slowIsExternal then ⟨.slow, j.params.slowOutput.toNat + o⟩
  else ⟨.mid, j.params.midOutput.toNat + o⟩

/-- The output tensor holds good values in the end. -/
def Finished (j : Job) (aim : Aim) (img : Image) : Prop :=
  ∀ k < j.tileCount, ∀ p < (j.outputStore k).byteCount, ∀ o,
    (j.outputStore k).target p = ⟨.mid, j.params.midOutput.toNat + o⟩ →
      aim.good ((j.outputStore k).target p) (img (j.outputAt o))

/-- Memory before a phase of a run that began with the bytes `img₀`. -/
def Ready (j : Job) (img₀ : Image) (aim : Aim) : Phase → Image → Prop
  | .stageIn, img => img = img₀
  | .prologue, img => j.SourcesIn (j.fed img₀) img
  | .fetch i, img => j.Fetching (j.fed img₀) aim i img
  | .compute i, img => j.Computing (j.fed img₀) aim i img
  | .stageOut, img => ∀ k < j.tileCount, j.Stored aim k img
  | .finished, img => j.Finished aim img

/-! ## Where transfers do not reach -/

theorem not_inMid_of_inSlot {role : Role} {p : Parity} {e : Endpoint} (h : j.InSlot role p e)
    (addr len : Nat) : ¬ InMid addr len e := by
  rintro ⟨htier, -⟩
  rw [h.1] at htier
  cases htier

theorem Accepted.not_inSlot (h : j.Accepted) {role role' : Role} (hne : role ≠ role') {p : Parity}
    {e : Endpoint} (he : j.InSlot role p e) (q : Parity) : ¬ j.InSlot role' q e :=
  fun he' => hne (h.slot_apart he he').1

theorem Separate.not_inOutput (h : j.Separate) {e : Endpoint} (he : j.InInput e ∨ j.InBlob e) :
    ¬ j.InOutput e := by
  rcases he with hin | hblob
  · exact apart_inMid h.input_output hin
  · exact fun hout => apart_inMid h.output_blob hout hblob

theorem mem_wholes_fetch {i : Nat} {w : Descriptor} (hw : w ∈ j.wholes (.fetch i)) :
    (∃ k, i = k + 1 ∧ w = j.outputStore k) ∨ (i + 1 < j.tileCount ∧ w = j.inputLoad (i + 1)) ∨
      (j.geometry.tileGrid.changesAt i = true ∧ w ∈ j.weightLoads (j.blockOf (i + 1))) := by
  rcases List.mem_append.mp hw with hdivided | hled
  · rcases List.mem_append.mp hdivided with hstore | hload
    · cases i with
      | zero => cases hstore
      | succ k => exact .inl ⟨k, rfl, List.mem_singleton.mp hstore⟩
    · unfold inputLoads at hload
      split at hload
      · rename_i hi
        exact .inr (.inl ⟨hi, List.mem_singleton.mp hload⟩)
      · cases hload
  · change w ∈ j.weightReloads i at hled
    unfold weightReloads at hled
    split at hled
    · rename_i hchange
      exact .inr (.inr ⟨hchange, hled⟩)
    · cases hled

theorem mem_wholes_prologue {w : Descriptor} (hw : w ∈ j.wholes .prologue) :
    w = j.inputLoad 0 ∨ w ∈ j.weightLoads (j.blockOf 0) :=
  (List.mem_append.mp hw).imp_left List.mem_singleton.mp

/-- A byte that is not in the output tensor nor in a slot that is filled is left alone. -/
theorem Accepted.fetch_untouched (h : j.Accepted) {i : Nat} (hi : i ≤ j.tileCount) {e : Endpoint}
    (hout : ¬ j.InOutput e) (hinput : ¬ j.InSlot .input (.of (i + 1)) e)
    (hweights : j.geometry.tileGrid.changesAt i = true →
      ¬ j.InSlot .weights (.of (j.blockOf (i + 1))) e ∧
        ¬ j.InSlot .requant (.of (j.blockOf (i + 1))) e) : Untouched (j.wholes (.fetch i)) e := by
  rintro w hw p hp rfl
  rcases mem_wholes_fetch hw with ⟨k, rfl, rfl⟩ | ⟨hnext, rfl⟩ | ⟨hchange, hin⟩
  · exact hout (h.outputStore_moves hi hp).2
  · exact hinput (h.inputLoad_moves hnext hp).2
  · obtain ⟨hw', hr'⟩ := hweights hchange
    rcases ((h.weightLoads_moves (blockOf_lt (changesAt_lt hchange).1) hin).2 p hp).2 with hs | hs
    · exact hw' hs
    · exact hr' hs

theorem Accepted.prologue_untouched (h : j.Accepted) {e : Endpoint} (he : j.InInput e ∨ j.InBlob e) :
    Untouched (j.wholes .prologue) e := by
  have hslot : ∀ role p, ¬ j.InSlot role p e := fun role p hs =>
    he.elim (not_inMid_of_inSlot hs _ _) (not_inMid_of_inSlot hs _ _)
  rintro w hw p hp rfl
  rcases mem_wholes_prologue hw with rfl | hin
  · exact hslot _ _ (h.inputLoad_moves h.tileCount_pos hp).2
  · rcases ((h.weightLoads_moves (blockOf_lt h.tileCount_pos) hin).2 p hp).2 with hs | hs
    · exact hslot _ _ hs
    · exact hslot _ _ hs

theorem Separate.sources_untouched (h : j.Separate) {i : Nat} (hi : i ≤ j.tileCount) {e : Endpoint}
    (he : j.InInput e ∨ j.InBlob e) : Untouched (j.wholes (.fetch i)) e := by
  have hslot : ∀ role p, ¬ j.InSlot role p e := fun role p hs =>
    he.elim (not_inMid_of_inSlot hs _ _) (not_inMid_of_inSlot hs _ _)
  exact h.fetch_untouched hi (h.not_inOutput he) (hslot _ _) fun _ => ⟨hslot _ _, hslot _ _⟩

theorem Accepted.parity_next (h : j.Accepted) {i : Nat} (hchange : j.geometry.tileGrid.changesAt i = true) :
    Parity.of (j.blockOf (i + 1)) ≠ .of (j.blockOf i) := by
  rcases Grid.blockAt_succ (Geometry.tileGrid_regular h.tiled h.small) i with heq | heq
  · exact absurd heq (changesAt_lt hchange).2
  · show Parity.of (j.geometry.tileGrid.blockAt (i + 1)) ≠ _
    rw [heq]
    exact Parity.of_succ_ne _

/-- An endpoint in one of the slots that tile `i` is computed from or computed into. -/
def InCall (j : Job) (i : Nat) (e : Endpoint) : Prop :=
  j.InSlot .input (.of i) e ∨ j.InSlot .output (.of i) e ∨
    j.InSlot .weights (.of (j.blockOf i)) e ∨ j.InSlot .requant (.of (j.blockOf i)) e

theorem InCall.slot {i : Nat} {e : Endpoint} (h : j.InCall i e) : ∃ role p, j.InSlot role p e := by
  rcases h with hs | hs | hs | hs <;> exact ⟨_, _, hs⟩

/-- While tile `i` is computed no transfer writes into its slots. -/
theorem Accepted.call_untouched (h : j.Accepted) {i : Nat} (hi : i < j.tileCount) {e : Endpoint}
    (he : j.InCall i e) : Untouched (j.wholes (.fetch i)) e := by
  obtain ⟨role, q, hslot⟩ := he.slot
  refine h.fetch_untouched (Nat.le_of_lt hi) (not_inMid_of_inSlot hslot _ _) ?_ fun hchange => ?_
  · intro hnext
    rcases he with hs | hs | hs | hs
    · exact Parity.of_succ_ne i (h.slot_apart hnext hs).2
    all_goals cases (h.slot_apart hnext hs).1
  · have hparity := h.parity_next hchange
    refine ⟨fun hnext => ?_, fun hnext => ?_⟩
    · rcases he with hs | hs | hs | hs
      · cases (h.slot_apart hnext hs).1
      · cases (h.slot_apart hnext hs).1
      · exact hparity (h.slot_apart hnext hs).2
      · cases (h.slot_apart hnext hs).1
    · rcases he with hs | hs | hs | hs
      · cases (h.slot_apart hnext hs).1
      · cases (h.slot_apart hnext hs).1
      · cases (h.slot_apart hnext hs).1
      · exact hparity (h.slot_apart hnext hs).2

/-- While tile `i` is computed no transfer reads the slot that it is computed into. -/
theorem Accepted.output_unread (h : j.Accepted) {i : Nat} (hi : i < j.tileCount) {e : Endpoint}
    (he : j.InSlot .output (.of i) e) : Unread (j.wholes (.fetch i)) e := by
  rintro w hw p hp rfl
  rcases mem_wholes_fetch hw with ⟨k, rfl, rfl⟩ | ⟨hnext, rfl⟩ | ⟨hchange, hin⟩
  · have hk : k < j.geometry.tileGrid.size := Nat.lt_of_succ_lt hi
    exact Parity.of_succ_ne k (h.slot_apart he (h.outputStore_moves hk hp).1).2
  · have htier := (h.inputLoad_moves hnext hp).1
    rw [he.1] at htier
    cases htier
  · have hblob := ((h.weightLoads_moves (blockOf_lt (changesAt_lt hchange).1) hin).2 p hp).1
    exact not_inMid_of_inSlot he _ _ hblob

/-! ## Loading a tile -/

theorem Accepted.inputLoad_window (h : j.Accepted) {k : Nat} (hk : k < j.tileCount) {p : Nat}
    (hp : p < j.windowBytes k) :
    p < (j.inputLoad k).byteCount ∧ j.InInput ((j.inputLoad k).source p) := by
  obtain ⟨hr, hq, hch, hsplit⟩ := packed_digits hp
  obtain ⟨hbytes, hin, -⟩ := h.inputLoad_element hk hr hq hch
  rw [← hsplit] at hbytes hin
  exact ⟨hbytes, hin⟩

/-- The window of a tile comes from the input tensor. -/
theorem Accepted.window_origin (h : j.Accepted) {k : Nat} (hk : k < j.tileCount)
    {wholes : List Descriptor} (hmem : j.inputLoad k ∈ wholes)
    (hquiet : ∀ e, j.InInput e → Untouched wholes e)
    (honly : ∀ w ∈ wholes, w = j.inputLoad k ∨
      ∀ p < w.byteCount, ¬ j.InSlot .input (.of k) (w.target p)) {p : Nat}
    (hp : p < j.windowBytes k) :
    Origin wholes ((j.inputLoad k).target p) ((j.inputLoad k).source p) := by
  obtain ⟨hbytes, hin⟩ := h.inputLoad_window hk hp
  refine .copied (hquiet _ hin) ⟨_, hmem, p, hbytes, rfl⟩ fun w hw p' hp' htarget => ?_
  rcases honly w hw with rfl | hother
  · rw [show p' = p from Nat.add_left_cancel (congrArg Endpoint.addr htarget)]
  · refine absurd ?_ (hother p' hp')
    rw [htarget]
    exact (h.inputLoad_moves hk hbytes).2

/-- Two weight transfers of a block that write the same byte read it from the same place. -/
theorem Accepted.weightLoads_agree (h : j.Accepted) {b : Nat} (hb : b < j.geometry.tileGrid.channels)
    {w w' : Descriptor} (hw : w ∈ j.weightLoads b) (hw' : w' ∈ j.weightLoads b) {p p' : Nat}
    (hp : p < w.byteCount) (hp' : p' < w'.byteCount) (htarget : w.target p = w'.target p') :
    w.source p = w'.source p' := by
  obtain ⟨-, hle, -⟩ := h.chanLen_facts hb
  obtain ⟨-, htap, hfit⟩ := h.tapLoad_boxed hb
  have hbias := h.scratch.bias
  have hbelow := h.scratch.weights_below_requant (.of b) (.of b)
  have hword : ∀ array offset,
      (j.wordLoad array offset b).byteCount = (j.geometry.chans b).len * 4 := by
    intro array offset
    show (Shape.box _ _ _ _ _).byteCount = _
    rw [Shape.box_byteCount, Nat.max_self, Nat.mul_one]
  have haddr := congrArg Endpoint.addr htarget
  simp only [weightLoads, List.mem_cons, List.not_mem_nil, or_false] at hw hw'
  -- the three transfers fill ranges that lie one after the other
  rcases hw with rfl | rfl | rfl <;> rcases hw' with rfl | rfl | rfl <;>
    simp only [htap, hword] at hp hp' hfit <;>
    simp only [Descriptor.target, tapLoad, wordLoad, padAt, Scratch.kappaOffset,
      Scratch.lambdaOffset, Scratch.slot, Scratch.slots] at haddr hbelow <;>
    first
    | exact absurd haddr (by omega)
    | rw [show p = p' by omega]

/-- The weights of a block come from the blob. -/
theorem Accepted.weights_origin (h : j.Accepted) {b : Nat} (hb : b < j.geometry.tileGrid.channels)
    {wholes : List Descriptor} (hmem : ∀ w ∈ j.weightLoads b, w ∈ wholes)
    (hquiet : ∀ e, j.InBlob e → Untouched wholes e)
    (honly : ∀ w ∈ wholes, w ∈ j.weightLoads b ∨ ∀ p < w.byteCount,
      ¬ j.InSlot .weights (.of b) (w.target p) ∧ ¬ j.InSlot .requant (.of b) (w.target p))
    {w : Descriptor} (hw : w ∈ j.weightLoads b) {p : Nat} (hp : p < w.byteCount) :
    Origin wholes (w.target p) (w.source p) := by
  obtain ⟨hblob, hslot⟩ := (h.weightLoads_moves hb hw).2 p hp
  refine .copied (hquiet _ hblob) ⟨w, hmem w hw, p, hp, rfl⟩ fun w' hw' p' hp' htarget => ?_
  rcases honly w' hw' with hin | hother
  · exact h.weightLoads_agree hb hin hw hp' hp htarget
  · obtain ⟨hnw, hnr⟩ := hother p' hp'
    rw [htarget] at hnw hnr
    exact absurd hslot (not_or.mpr ⟨hnw, hnr⟩)

/-- The slots of a tile that are left alone still hold it. -/
theorem Accepted.loaded_kept (h : j.Accepted) {k : Nat} (hk : k < j.tileCount)
    {img' : Image} (hloaded : j.Loaded x k img)
    (hsame : ∀ e, j.InCall k e → ¬ j.InSlot .output (.of k) e → img' e = img e) :
    j.Loaded x k img' := by
  refine ⟨fun p hp => ?_, fun w hw p hp => ?_⟩
  · have hslot := (h.inputLoad_moves hk (h.inputLoad_window hk hp).1).2
    rw [hsame _ (.inl hslot) fun hout => by cases (h.slot_apart hslot hout).1]
    exact hloaded.window p hp
  · have hmoves := ((h.weightLoads_moves (blockOf_lt hk) hw).2 p hp).2
    rw [hsame _ (.inr (.inr hmoves)) fun hout => ?_]
    · exact hloaded.weights w hw p hp
    · rcases hmoves with hs | hs <;> cases (h.slot_apart hs hout).1

/-- The ranges that a call of tile `i` reads hold, in `img`, the operands of the tile that mid memory
holds in `mid`: the window of the tile, packed row by row, and the weights, multipliers and biases of its
channels. -/
structure Operands (j : Job) (i : Nat) (call : Call) (img mid : Image) : Prop where
  dims : call.inputDims = ⟨(j.geometry.inRows i).len, (j.geometry.inCols i).len,
    (j.geometry.chans (j.blockOf i)).len⟩ ∧ call.channels = (j.geometry.chans (j.blockOf i)).len
  window : ∀ r < call.inputDims.rows, ∀ q < call.inputDims.cols, ∀ ch < call.inputDims.channels,
    img ⟨.scratchpad, call.input + ((r * call.inputDims.cols + q) * call.inputDims.channels + ch)⟩ =
      mid ⟨.mid, j.params.midInput.toNat + j.inputTensor.place ((j.geometry.inRows i).start + r)
        ((j.geometry.inCols i).start + q) ((j.geometry.chans (j.blockOf i)).start + ch)⟩
  weights : ∀ p < call.channels * j.taps, img ⟨.scratchpad, call.weights + p⟩ =
    mid ⟨.mid, j.params.midWeights.toNat +
      (j.blob.weights + (j.geometry.chans (j.blockOf i)).start * j.taps) + p⟩
  kappa : ∀ p < call.channels * 4, img ⟨.scratchpad, call.kappa + p⟩ =
    mid ⟨.mid, j.params.midWeights.toNat +
      (j.blob.kappa + (j.geometry.chans (j.blockOf i)).start * 4) + p⟩
  lambda : ∀ p < call.channels * 4, img ⟨.scratchpad, call.lambda + p⟩ =
    mid ⟨.mid, j.params.midWeights.toNat +
      (j.blob.lambda + (j.geometry.chans (j.blockOf i)).start * 4) + p⟩

/-- A loaded tile has its operands in the ranges of its call. -/
theorem Accepted.operands_of_loaded (h : j.Accepted) {i : Nat} (hi : i < j.tileCount)
    (hloaded : j.Loaded x i img) : j.Operands i (j.callAt i) img x := by
  have hkappa := h.blob_lambda
  have hlambda := h.blob_total
  have hbias := h.scratch.bias
  have hsize : 8 * j.geometry.block.channels ≤ (j.scratch.slots .requant).slotSize :=
    h.scratch.requant_size
  have hslot := h.slot_le_start .requant (.of (j.blockOf i))
  have hword : ∀ array offset, j.wordLoad array offset (j.blockOf i) ∈ j.weightLoads (j.blockOf i) →
      array ≤ j.blob.total → offset ≤ j.scratch.workspace.start → ∀ p < (j.callAt i).channels * 4,
      img ⟨.scratchpad, (j.padAt offset).addr + p⟩ = x ⟨.mid, j.params.midWeights.toNat +
        (array + (j.geometry.chans (j.blockOf i)).start * 4) + p⟩ := by
    intro array offset hmem harray hoffset p hp
    obtain ⟨hboxed, hbytes⟩ := h.wordLoad_boxed (blockOf_lt hi) harray hoffset
    have hlt : p < (j.wordLoad array offset (j.blockOf i)).byteCount := by
      rw [hbytes]
      exact hp
    have hmoved := hloaded.weights _ hmem p hlt
    obtain ⟨hsource, htarget⟩ := hboxed.contiguous rfl hlt ⟨rfl, .inl ⟨rfl, rfl⟩⟩
    rw [hsource, htarget] at hmoved
    exact hmoved
  refine ⟨⟨rfl, rfl⟩, fun r hr q hq ch hch => ?_, fun p hp => ?_, ?_, ?_⟩
  · have hwindow := hloaded.window _ (packed_lt hr hq hch)
    rw [(h.inputLoad_element hi hr hq hch).2.2] at hwindow
    exact hwindow
  · obtain ⟨hboxed, hbytes, -⟩ := h.tapLoad_boxed (blockOf_lt hi)
    have hlt : p < (j.tapLoad (j.blockOf i)).byteCount := by
      rw [hbytes]
      exact hp
    have hmoved := hloaded.weights _ (List.mem_cons_self) p hlt
    obtain ⟨hsource, htarget⟩ := hboxed.contiguous rfl hlt ⟨rfl, .inr rfl⟩
    rw [hsource, htarget] at hmoved
    exact hmoved
  · refine hword _ _ (List.mem_cons_of_mem _ List.mem_cons_self) (by omega) ?_
    show j.scratch.slot .requant (.of (j.blockOf i)) ≤ _
    omega
  · refine hword _ _ (List.mem_cons_of_mem _ (List.mem_cons_of_mem _ List.mem_cons_self)) (by omega) ?_
    show j.scratch.slot .requant (.of (j.blockOf i)) + j.scratch.biasOffset ≤ _
    omega

/-! ## Staging -/

theorem Accepted.inputStage_moves (h : j.Accepted) {p : Nat} (hp : p < j.inputStage.byteCount) :
    (j.inputStage.source p).tier = .slow ∧ j.InInput (j.inputStage.target p) := by
  rw [h.staging_bytes.1] at hp
  exact ⟨rfl, rfl, Nat.le_add_right _ _, Nat.add_lt_add_left hp _⟩

theorem Accepted.stageWeights_moves (h : j.Accepted) {p : Nat} (hp : p < j.stageWeights.byteCount) :
    (j.stageWeights.source p).tier = .slow ∧ j.InBlob (j.stageWeights.target p) := by
  rw [h.staging_bytes.2.2] at hp
  have hlow : low32 j.blob.total ≤ j.blob.total := Nat.mod_le _ _
  exact ⟨rfl, rfl, Nat.le_add_right _ _, Nat.add_lt_add_left (Nat.lt_of_lt_of_le hp hlow) _⟩

/-- What is staged comes from slow memory. -/
theorem Separate.stage_origin (h : j.Separate) {w : Descriptor} (hw : w ∈ j.led .stageIn) {p : Nat}
    (hp : p < w.byteCount) : Origin (j.wholes .stageIn) (w.target p) (w.source p) := by
  have hmid : ∀ w' ∈ j.led .stageIn, ∀ q < w'.byteCount,
      (w'.source q).tier = .slow ∧ (j.InInput (w'.target q) ∨ j.InBlob (w'.target q)) := by
    intro w' hw' q hq
    simp only [led, List.mem_cons, List.not_mem_nil, or_false] at hw'
    rcases hw' with rfl | rfl
    · exact ⟨(h.inputStage_moves hq).1, .inl (h.inputStage_moves hq).2⟩
    · exact ⟨(h.stageWeights_moves hq).1, .inr (h.stageWeights_moves hq).2⟩
  refine .copied ?_ ⟨w, hw, p, hp, rfl⟩ fun w' hw' p' hp' htarget => ?_
  · rintro w' hw' q hq hwrite
    have htier := (hmid w hw p hp).1
    rw [← hwrite] at htier
    rcases (hmid w' hw' q hq).2 with hs | hs <;> (rw [hs.1] at htier; cases htier)
  have haddr := congrArg Endpoint.addr htarget
  simp only [led, List.mem_cons, List.not_mem_nil, or_false] at hw
  change w' ∈ [j.inputStage, j.stageWeights] at hw'
  simp only [List.mem_cons, List.not_mem_nil, or_false] at hw'
  rcases hw with rfl | rfl <;> rcases hw' with rfl | rfl
  · rw [Nat.add_left_cancel haddr]
  · have hblob := (h.stageWeights_moves hp').2
    rw [htarget] at hblob
    exact absurd hblob (apart_inMid h.input_blob (h.inputStage_moves hp).2)
  · have hblob := (h.stageWeights_moves hp).2
    rw [← htarget] at hblob
    exact absurd hblob (apart_inMid h.input_blob (h.inputStage_moves hp').2)
  · rw [Nat.add_left_cancel haddr]

/-- However the bulk copies are retired, input tensor and weight blob are what one copy after the other
leaves of them. -/
theorem Separate.sources_staged (h : j.Separate) (hext : j.params.slowIsExternal = true)
    {ds : List Descriptor} (hcover : Covers ds (j.wholes .stageIn)) :
    j.SourcesIn (j.fed img) (img.applyAll ds) := by
  intro e _
  rw [fed, if_pos hext]
  have hself : Covers (j.led .stageIn) (j.wholes .stageIn) := Covers.self _
  by_cases hquiet : Untouched (j.wholes .stageIn) e
  · -- a blob of `2 ^ 32` bytes or more is not copied to its end
    rw [hcover.kept hquiet, hself.kept hquiet]
  · obtain ⟨w, hw, p, hp, rfl⟩ := exists_of_not_untouched hquiet
    have horigin := h.stage_origin hw hp
    rw [hcover.origin horigin, hself.origin horigin]

theorem Accepted.outputStage_target (h : j.Accepted) {o : Nat} (ho : o < j.outputBytes) :
    j.outputStage.target o = ⟨.slow, j.params.slowOutput.toNat + o⟩ := by
  rw [← low32_of_lt h.output_lt] at ho
  exact (staging_scatter j.params.slowOutput j.params.midOutput ho).2

/-! ## Where the bytes of a phase come from -/

theorem Accepted.prologue_window_origin (h : j.Accepted) {p : Nat} (hp : p < j.windowBytes 0) :
    Origin (j.wholes .prologue) ((j.inputLoad 0).target p) ((j.inputLoad 0).source p) := by
  refine h.window_origin h.tileCount_pos (List.mem_append_left _ (List.mem_singleton_self _))
    (fun e he => h.prologue_untouched (.inl he)) (fun w hw => ?_) hp
  refine (mem_wholes_prologue hw).imp_right fun hin q hq hs => ?_
  rcases ((h.weightLoads_moves (blockOf_lt h.tileCount_pos) hin).2 q hq).2 with hw | hw
  all_goals cases (h.slot_apart hs hw).1

theorem Accepted.prologue_weights_origin (h : j.Accepted) {w : Descriptor}
    (hw : w ∈ j.weightLoads (j.blockOf 0)) {p : Nat} (hp : p < w.byteCount) :
    Origin (j.wholes .prologue) (w.target p) (w.source p) := by
  refine h.weights_origin (blockOf_lt h.tileCount_pos) (fun w hw => List.mem_append_right _ hw)
    (fun e he => h.prologue_untouched (.inr he)) (fun w' hw' => ?_) hw hp
  refine (mem_wholes_prologue hw').symm.imp_right ?_
  rintro rfl q hq
  have hin := (h.inputLoad_moves h.tileCount_pos hq).2
  exact ⟨h.not_inSlot (by decide) hin _, h.not_inSlot (by decide) hin _⟩

theorem Separate.fetch_window_origin (h : j.Separate) {i : Nat} (hnext : i + 1 < j.tileCount)
    {p : Nat} (hp : p < j.windowBytes (i + 1)) : Origin (j.wholes (.fetch i))
      ((j.inputLoad (i + 1)).target p) ((j.inputLoad (i + 1)).source p) := by
  have hle : i ≤ j.tileCount := by omega
  have hmem : j.inputLoad (i + 1) ∈ j.wholes (.fetch i) := by
    refine List.mem_append_left _ (List.mem_append_right _ ?_)
    rw [inputLoads, if_pos hnext]
    exact List.mem_singleton_self _
  refine h.window_origin hnext hmem (fun e he => h.sources_untouched hle (.inl he))
    (fun w hw => ?_) hp
  rcases mem_wholes_fetch hw with ⟨k, rfl, rfl⟩ | ⟨-, rfl⟩ | ⟨hchange, hin⟩
  · exact .inr fun q hq hs => not_inMid_of_inSlot hs _ _ (h.outputStore_moves hle hq).2
  · exact .inl rfl
  · refine .inr fun q hq hs => ?_
    rcases ((h.weightLoads_moves (blockOf_lt (changesAt_lt hchange).1) hin).2 q hq).2 with hw | hw
    all_goals cases (h.slot_apart hs hw).1

theorem Separate.fetch_weights_origin (h : j.Separate) {i : Nat}
    (hchange : j.geometry.tileGrid.changesAt i = true) {w : Descriptor}
    (hw : w ∈ j.weightLoads (j.blockOf (i + 1))) {p : Nat} (hp : p < w.byteCount) :
    Origin (j.wholes (.fetch i)) (w.target p) (w.source p) := by
  have hnext := (changesAt_lt hchange).1
  have hle : i ≤ j.tileCount := by omega
  have hmem : ∀ w ∈ j.weightLoads (j.blockOf (i + 1)), w ∈ j.wholes (.fetch i) := by
    intro w hw
    refine List.mem_append_right _ ?_
    show w ∈ j.weightReloads i
    rw [weightReloads, if_pos hchange]
    exact hw
  refine h.weights_origin (blockOf_lt hnext) hmem
    (fun e he => h.sources_untouched hle (.inr he)) (fun w' hw' => ?_) hw hp
  rcases mem_wholes_fetch hw' with ⟨k, rfl, rfl⟩ | ⟨-, rfl⟩ | ⟨-, hin⟩
  · refine .inr fun q hq => ?_
    have hout := (h.outputStore_moves hle hq).2
    exact ⟨fun hs => not_inMid_of_inSlot hs _ _ hout, fun hs => not_inMid_of_inSlot hs _ _ hout⟩
  · refine .inr fun q hq => ?_
    have hin := (h.inputLoad_moves hnext hq).2
    exact ⟨h.not_inSlot (by decide) hin _, h.not_inSlot (by decide) hin _⟩
  · exact .inl hin

/-- The output slot that is drained is not touched meanwhile. -/
theorem Accepted.drained_untouched (h : j.Accepted) {k : Nat} (hk : k < j.tileCount) {e : Endpoint}
    (he : j.InSlot .output (.of k) e) : Untouched (j.wholes (.fetch (k + 1))) e :=
  h.fetch_untouched hk (not_inMid_of_inSlot he _ _) (h.not_inSlot (by decide) he _) fun _ =>
    ⟨h.not_inSlot (by decide) he _, h.not_inSlot (by decide) he _⟩

/-- What is written back comes from the output slot of its tile. -/
theorem Accepted.store_origin (h : j.Accepted) {k : Nat} (hk : k < j.tileCount) {p : Nat}
    (hp : p < (j.outputStore k).byteCount) : Origin (j.wholes (.fetch (k + 1)))
      ((j.outputStore k).target p) ((j.outputStore k).source p) := by
  obtain ⟨hdrain, hout⟩ := h.outputStore_moves hk hp
  refine .copied (h.drained_untouched hk hdrain) ⟨_, List.mem_append_left _
    (List.mem_append_left _ (List.mem_singleton_self _)), p, hp, rfl⟩ fun w hw q hq htarget => ?_
  rcases mem_wholes_fetch hw with ⟨m, hm, rfl⟩ | ⟨hnext, rfl⟩ | ⟨hchange, hin⟩
  · cases hm
    rw [h.outputStore_target_inj hk hq hp htarget]
  · have hslot := (h.inputLoad_moves hnext hq).2
    rw [htarget] at hslot
    exact absurd hout (not_inMid_of_inSlot hslot _ _)
  · have hslots := ((h.weightLoads_moves (blockOf_lt (changesAt_lt hchange).1) hin).2 q hq).2
    rw [htarget] at hslots
    rcases hslots with hslot | hslot <;> exact absurd hout (not_inMid_of_inSlot hslot _ _)

theorem Accepted.outputStage_origin (h : j.Accepted) {o : Nat} (ho : o < j.outputStage.byteCount) :
    Origin (j.wholes .stageOut) (j.outputStage.target o) (j.outputStage.source o) := by
  have hbytes := h.staging_bytes.2.1
  refine .copied ?_ ⟨_, List.mem_singleton_self _, o, ho, rfl⟩ fun w hw q hq htarget => ?_
  · rintro w hw q hq hwrite
    cases List.mem_singleton.mp hw
    rw [hbytes] at hq
    rw [h.outputStage_target hq] at hwrite
    cases congrArg Endpoint.tier hwrite
  · cases List.mem_singleton.mp hw
    rw [hbytes] at hq ho
    rw [h.outputStage_target hq, h.outputStage_target ho] at htarget
    rw [show q = o from Nat.add_left_cancel (congrArg Endpoint.addr htarget)]

/-! ## From phase to phase -/

theorem Accepted.stored_fetch (h : j.Accepted) {i : Nat} (hi : i ≤ j.tileCount)
    (hready : j.Fetching x aim i img) {ds : List Descriptor}
    (hcover : Covers ds (j.wholes (.fetch i))) {k : Nat} (hk : k < i) :
    j.Stored aim k (img.applyAll ds) := by
  intro p hp
  have hkN : k < j.geometry.tileGrid.size := Nat.lt_of_lt_of_le hk hi
  have hout := (h.outputStore_moves hkN hp).2
  refine hcover.settles ?_ fun w hw q hq htarget => ?_
  · rcases Nat.lt_or_eq_of_le (show k + 1 ≤ i from hk) with hlt | rfl
    · exact .inl (hready.stored k hlt p hp)
    · exact .inr ⟨j.outputStore k, List.mem_append_left _ (List.mem_append_left _
        (List.mem_singleton_self _)), p, hp, rfl⟩
  · have hslot : ∀ role parity, ¬ j.InSlot role parity (w.target q) := by
      intro role parity hs
      rw [htarget] at hs
      exact not_inMid_of_inSlot hs _ _ hout
    rcases mem_wholes_fetch hw with ⟨m, rfl, rfl⟩ | ⟨hnext, rfl⟩ | ⟨hchange, hin⟩
    · have hm : m < j.geometry.tileGrid.size := hi
      have hdrain := (h.outputStore_moves hm hq).1
      exact ⟨by rw [← htarget]; exact hready.computed m rfl q hq, h.drained_untouched hm hdrain⟩
    · exact absurd (h.inputLoad_moves hnext hq).2 (hslot _ _)
    · rcases ((h.weightLoads_moves (blockOf_lt (changesAt_lt hchange).1) hin).2 q hq).2 with hs | hs
      · exact absurd hs (hslot _ _)
      · exact absurd hs (hslot _ _)

/-- Fetching leaves tile `i` where it is and brings the next one. -/
theorem Separate.computing_of_fetching (h : j.Separate) {i : Nat} (hi : i < j.tileCount)
    (hready : j.Fetching x aim i img) {ds : List Descriptor}
    (hcover : Covers ds (j.wholes (.fetch i))) : j.Computing x aim i (img.applyAll ds) := by
  have hle := Nat.le_of_lt hi
  have hcall : ∀ e, j.InCall i e → img.applyAll ds e = img e :=
    fun e he => hcover.kept (h.call_untouched hi he)
  refine ⟨fun e he => (hcover.kept (h.sources_untouched hle he)).trans (hready.sources e he),
    h.loaded_kept hi (hready.loaded hi) fun e he _ => hcall e he,
    fun hnext => ⟨fun p hp => ?_, ?_⟩, fun k hk => h.stored_fetch hle hready hcover hk⟩
  · rw [hcover.origin (h.fetch_window_origin hnext hp)]
    exact hready.sources _ (.inl (h.inputLoad_window hnext hp).2)
  · by_cases hchange : j.geometry.tileGrid.changesAt i = true
    · intro w hw p hp
      rw [hcover.origin (h.fetch_weights_origin hchange hw hp)]
      exact hready.sources _ (.inr ((h.weightLoads_moves (blockOf_lt hnext) hw).2 p hp).1)
    · -- the block stays, and its weights are not touched
      have hsame : j.blockOf (i + 1) = j.blockOf i := by
        have hnot : ¬ (i + 1 < j.geometry.tileGrid.size ∧
            j.geometry.tileGrid.blockAt (i + 1) ≠ j.geometry.tileGrid.blockAt i) := by
          simpa [Grid.changesAt] using hchange
        exact Decidable.not_not.mp fun hne => hnot ⟨hnext, hne⟩
      rw [hsame]
      exact (h.loaded_kept hi (hready.loaded hi) fun e he _ => hcall e he).weights

theorem Accepted.fetching_of_sources (h : j.Accepted) (hready : j.SourcesIn x img)
    {ds : List Descriptor} (hcover : Covers ds (j.wholes .prologue)) :
    j.Fetching x aim 0 (img.applyAll ds) := by
  have hzero := h.tileCount_pos
  refine ⟨fun e he => (hcover.kept (h.prologue_untouched he)).trans (hready e he),
    fun _ => ⟨fun p hp => ?_, fun w hw p hp => ?_⟩,
    fun k hk => absurd hk (Nat.not_lt_zero _), fun k hk => by omega⟩
  · rw [hcover.origin (h.prologue_window_origin hp)]
    exact hready _ (.inl (h.inputLoad_window hzero hp).2)
  · rw [hcover.origin (h.prologue_weights_origin hw hp)]
    exact hready _ (.inr ((h.weightLoads_moves (blockOf_lt hzero) hw).2 p hp).1)

theorem Accepted.finished_of_staged (h : j.Accepted) (hext : j.params.slowIsExternal = true)
    {ds : List Descriptor} (hcover : Covers ds (j.wholes .stageOut))
    (hstored : ∀ k < j.tileCount, j.Stored aim k img) : j.Finished aim (img.applyAll ds) := by
  intro k hk p hp o htarget
  have hbytes := h.staging_bytes.2.1
  have ho : o < j.outputBytes := by
    have hin := (h.outputStore_moves hk hp).2
    rw [htarget] at hin
    exact Nat.lt_of_add_lt_add_left hin.2.2
  have hsource : j.outputStage.source o = (j.outputStore k).target p := htarget.symm
  rw [outputAt, if_pos hext, ← h.outputStage_target ho,
    hcover.origin (h.outputStage_origin (by rwa [hbytes])), hsource]
  exact hstored k hk p hp

/-- **The transfers of a phase make memory ready for the next one**, whatever the order is. -/
theorem Separate.ready_next (h : j.Separate) {img₀ : Image} {ph : Phase} (hph : j.Valid ph)
    (hgoing : ph ≠ .finished) (hmoves : ∀ i, ph ≠ .compute i) {ds : List Descriptor}
    (hcover : Covers ds (j.wholes ph)) (hready : j.Ready img₀ aim ph img) :
    j.Ready img₀ aim (j.nextPhase ph) (img.applyAll ds) := by
  cases ph with
  | stageIn =>
    cases hready
    exact h.sources_staged hph hcover
  | prologue => exact h.fetching_of_sources hready hcover
  | fetch i =>
    rcases Nat.lt_or_eq_of_le (show i ≤ j.tileCount from hph) with hi | rfl
    · rw [nextPhase_fetch hi]
      exact h.computing_of_fetching hi hready hcover
    · have hstored : ∀ k < j.tileCount, j.Stored aim k (img.applyAll ds) :=
        fun k hk => h.stored_fetch (Nat.le_refl _) hready hcover hk
      rw [nextPhase_last]
      cases hext : j.params.slowIsExternal with
      | true => exact hstored
      | false =>
        intro k hk p hp o htarget
        rw [outputAt, if_neg (by rw [hext]; decide), ← htarget]
        exact hstored k hk p hp
  | compute i => exact absurd rfl (hmoves i)
  | stageOut => exact h.finished_of_staged hph hcover hready
  | finished => exact absurd rfl hgoing

end Job

end TileStream
