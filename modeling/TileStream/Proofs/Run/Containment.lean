import TileStream.Proofs.Run.TileKernel
import TileStream.Proofs.Run.WholeRun

/-! # A run touches nothing but its own buffers

`Owns` names the bytes that a run may change: the partition of the scratchpad,
the output tensor and, when the tensors come from slow memory, the places in mid
memory that they are copied to. Every whole transfer of a phase lands there
(`wholes_land`), so the parts of it that units submit do, and so does what the
kernel writes. -/
namespace TileStream

namespace Job

variable {j : Job} {kernel : Kernel} {ph : Phase} {img : Image}

/-- The bytes that belong to a run. -/
def Owns (j : Job) (e : Endpoint) : Prop :=
  match e.tier with
  | .scratchpad =>
    j.params.localBase.toNat ≤ e.addr ∧ e.addr < j.params.localBase.toNat + j.scratch.total
  | .mid => j.InOutput e ∨ j.params.slowIsExternal = true ∧ (j.InInput e ∨ j.InBlob e)
  | .slow =>
    j.params.slowIsExternal = true ∧ j.params.slowOutput.toNat ≤ e.addr ∧
      e.addr < j.params.slowOutput.toNat + j.outputBytes

/-- A transfer writes only bytes of the run. -/
def Lands (j : Job) (d : Descriptor) : Prop := ∀ p < d.byteCount, j.Owns (d.target p)

/-! ## Where transfers land -/

theorem owns_of_inOutput {e : Endpoint} (he : j.InOutput e) : j.Owns e := by
  unfold Owns
  rw [he.1]
  exact .inl he

theorem owns_of_staged {e : Endpoint} (hext : j.params.slowIsExternal = true)
    (he : j.InInput e ∨ j.InBlob e) : j.Owns e := by
  have htier : e.tier = .mid := by
    rcases he with hin | hin <;> exact hin.1
  unfold Owns
  rw [htier]
  exact .inr ⟨hext, he⟩

theorem Fit.owns_of_inSlot (h : j.Fit) {role : Role} {p : Parity} {e : Endpoint}
    (he : j.InSlot role p e) : j.Owns e := by
  obtain ⟨htier, hlo, hhi⟩ := he
  have hslot := h.slot_le role p
  have hbase : (j.padAt (j.scratch.slot role p)).addr =
      j.params.localBase.toNat + j.scratch.slot role p := rfl
  unfold Owns
  rw [htier]
  exact ⟨by omega, by omega⟩

theorem Fit.inputLoad_lands (h : j.Fit) {k : Nat} (hk : k < j.tileCount) :
    j.Lands (j.inputLoad k) := fun _ hp => h.owns_of_inSlot (h.inputLoad_moves hk hp).2

theorem Fit.weightLoads_land (h : j.Fit) {b : Nat} (hb : b < j.geometry.tileGrid.channels)
    {w : Descriptor} (hw : w ∈ j.weightLoads b) : j.Lands w := by
  intro p hp
  rcases ((h.weightLoads_moves hb hw).2 p hp).2 with hslot | hslot
  · exact h.owns_of_inSlot hslot
  · exact h.owns_of_inSlot hslot

/-- **Every whole transfer lands in the buffers of the run.** -/
theorem Fit.wholes_land (h : j.Fit) (hph : j.Valid ph) {w : Descriptor} (hw : w ∈ j.wholes ph) :
    j.Lands w := by
  cases ph with
  | stageIn =>
    simp only [wholes, divided, led, List.nil_append, List.mem_cons, List.not_mem_nil,
      or_false] at hw
    rcases hw with rfl | rfl
    · exact fun _ hp => owns_of_staged hph (.inl (h.inputStage_moves hp).2)
    · exact fun _ hp => owns_of_staged hph (.inr (h.stageWeights_moves hp).2)
  | prologue =>
    rcases List.mem_cons.mp hw with rfl | hweights
    · exact h.inputLoad_lands h.tileCount_pos
    · exact h.weightLoads_land (blockOf_lt h.tileCount_pos) hweights
  | fetch i =>
    rcases List.mem_append.mp hw with hdivided | hreload
    · rcases List.mem_append.mp hdivided with hstore | hload
      · cases i with
        | zero => cases hstore
        | succ i =>
          cases List.mem_singleton.mp hstore
          exact fun _ hp => owns_of_inOutput (h.outputStore_moves hph hp).2
      · unfold inputLoads at hload
        split at hload
        · rename_i hnext
          cases List.mem_singleton.mp hload
          exact h.inputLoad_lands hnext
        · cases hload
    · change w ∈ j.weightReloads i at hreload
      unfold weightReloads at hreload
      split at hreload
      · rename_i hchange
        exact h.weightLoads_land (blockOf_lt (changesAt_lt hchange).1) hreload
      · cases hreload
  | stageOut =>
    cases List.mem_singleton.mp hw
    intro p hp
    rw [h.staging_bytes.2.1] at hp
    rw [h.outputStage_target hp]
    exact ⟨hph, Nat.le_add_right _ _, Nat.add_lt_add_left hp _⟩
  | compute i | finished => cases hw

theorem Fit.sends_land (h : j.Fit) (hph : j.Valid ph) {u : Member} (hu : u.index < u.size)
    {d : Descriptor} (hd : d ∈ j.sends u ph) : j.Lands d := by
  obtain ⟨w, hw, first, hpart⟩ := h.sends_part hph hu hd
  intro p hp
  have hwithin := hpart.within
  rw [hpart.target p hp]
  exact h.wholes_land hph hw _ (by omega)

/-! ## What is kept -/

/-- Outside the buffers of the run memory holds what it held in `img`, and the queue lands in them. -/
structure Contained (j : Job) (img : Image) (s : TeamState) : Prop where
  kept : ∀ e, ¬ j.Owns e → s.image e = img e
  lands : ∀ d ∈ s.queue.pending, j.Lands d

/-- Transfers that land in the buffers of the run change nothing outside. -/
theorem applyAll_of_lands {ds : List Descriptor} (hlands : ∀ d ∈ ds, j.Lands d) {now : Image}
    (hkept : ∀ e, ¬ j.Owns e → now e = img e) {e : Endpoint} (he : ¬ j.Owns e) :
    now.applyAll ds e = img e := by
  refine (Image.applyAll_of_untouched now fun d hd p hp htarget => ?_).trans (hkept e he)
  rw [← htarget] at he
  exact he (hlands d hd p hp)

theorem Fit.contained_act (hj : j.Fit) (hconfined : kernel.Confined) {since : Nat} {c c' : Cluster}
    {before after : List Thread} {w : Worker} {a : Action} {rest : List Action}
    {issued : Array Nat} (h : j.Accounted ph since c.device.queue (before ++ ⟨w, a :: rest⟩ :: after))
    (hact : j.Performed kernel ph w.member w.issued c a issued c')
    (hcontained : j.Contained img ⟨c, before ++ ⟨w, a :: rest⟩ :: after⟩) :
    j.Contained img ⟨c', before ++ ⟨{ w with issued }, rest⟩ :: after⟩ := by
  obtain ⟨hkept, hlands⟩ := hcontained
  cases hact with
  | @submit d device _ hsend hsubmitted =>
    refine ⟨fun e he => ?_, fun e he => ?_⟩
    · show device.memory.image e = img e
      rw [hsubmitted.image]
      exact applyAll_of_lands (fun d hd => hlands d (List.mem_of_mem_take hd)) hkept he
    · rcases hsubmitted.mem_pending he with hold | rfl
      · exact hlands e hold
      · have hmember := h.member_mem (t := ⟨w, _⟩) mem_middle
        exact hj.sends_land h.valid (hj.member_lt hmember).1 hsend
  | @await n retired device _ hretired _ _ =>
    refine ⟨fun e he => ?_, fun d hd => ?_⟩
    · show device.memory.image e = img e
      rw [hretired.image]
      exact applyAll_of_lands (fun d hd => hlands d (List.mem_of_mem_take hd)) hkept he
    · change d ∈ device.queue.pending at hd
      rw [hretired.queue] at hd
      exact hlands d (List.mem_of_mem_drop hd)
  | inspect => exact ⟨hkept, hlands⟩
  | @compute i memory hph hrun =>
    subst hph
    refine ⟨fun e he => ?_, hlands⟩
    show memory.image e = img e
    rw [hconfined.frame _ _ _ _ rfl hrun e fun hwrite =>
      he (hj.owns_of_inSlot (hj.writes_inSlot h.valid hwrite))]
    exact hkept e he

theorem Fit.contained_invariant (hj : j.Fit) (hconfined : kernel.Confined) (img : Image) :
    j.Invariant kernel fun _ s => j.Contained img s where
  act h _ hact hcontained := hj.contained_act hconfined h hact hcontained
  meet _ _ _ _ hcontained := ⟨hcontained.kept, hcontained.lands⟩

/-- **In every state that a team reaches, bytes of others are as they were.** -/
theorem Fit.contained_of_reaches (hj : j.Fit) (hconfined : kernel.Confined) {c : Cluster}
    {s : TeamState} (hreach : j.Reaches kernel (j.started c) s) :
    j.Contained c.device.memory.image s := by
  have hstart : j.Contained c.device.memory.image (j.started c) :=
    ⟨fun _ _ => rfl, fun d hd => (by cases hd)⟩
  obtain ⟨_, -, hcontained⟩ := hj.invariant_reaches
    (hj.contained_invariant hconfined c.device.memory.image) hreach (hj.inPhase_started c).1 hstart
  exact hcontained

theorem Fit.run_kept (hj : j.Fit) (hconfined : kernel.Confined) {c c' : Cluster}
    {r : Except RegionError Report} (hrun : j.run kernel c = .ok r c') {e : Endpoint}
    (he : ¬ j.Owns e) : c'.device.memory.image e = c.device.memory.image e := by
  by_cases hholds : c.device.memory.scratchpad.Holds (j.params.localBase.toNat + j.scratch.total)
  · cases r with
    | ok report =>
      obtain ⟨c₁, s, himage, hreach, -, rfl, -⟩ := hj.run_inv hrun
      rw [← himage]
      exact (hj.contained_of_reaches hconfined hreach).kept e he
    | error cause => exact absurd hrun (hj.run_not_refused hholds)
  · obtain ⟨_, _, _, c₁, hrefused, -, himage⟩ := hj.run_refused kernel hholds
    rw [hrun] at hrefused
    cases hrefused
    rw [himage]

end Job

/-- **A run touches nothing but its own buffers.** Let a layer of bounded size be accepted, with a
scratchpad of at most 256 KiB. The job is that of the given layer, words and settings, and its partition
ends within this scratchpad. After any run with the depthwise
kernel, and in every state that the team reaches under any order of the units, a byte that is neither in
the partition, nor in the output tensor, nor in a place that a tensor is copied to, is what it was. Such a
run ends whenever the read counters are not near their limit. -/
theorem run_touches_own_buffers {g : Geometry} {words : List UInt32} {settings : Settings} {j : Job}
    (haccepted : (Job.ofWords g words settings).run = .ok (.ok j))
    (hcapacity : settings.localCapacity ≤ 0x40000) (hbounded : j.Bounded) (c : Cluster) :
    j.Made g words settings ∧
    j.params.localBase.toNat + j.scratch.total ≤ settings.localCapacity ∧
    (∀ r c', j.run Depthwise.kernel c = .ok r c' →
      ∀ e, ¬ j.Owns e → c'.device.memory.image e = c.device.memory.image e) ∧
    (∃ start, j.teamStart c = .ok start ∧ ∀ s, j.Reaches Depthwise.kernel start s →
      ∀ e, ¬ j.Owns e → s.image e = c.device.memory.image e) ∧
    ((∀ t, c.device.memory.readCount t < 0x8000000000000000) →
      ∃ r c', j.run Depthwise.kernel c = .ok r c') := by
  obtain ⟨hj, hmade⟩ := Job.fit_of_ofWords haccepted hcapacity hbounded
  have hwithin := hj.within
  rw [hmade.settings] at hwithin
  refine ⟨hmade, hwithin, fun r c' hrun e he => hj.run_kept Depthwise.kernel_confined hrun he,
    ⟨_, hj.teamStart_eq c, fun s hreach e he =>
      (hj.contained_of_reaches Depthwise.kernel_confined hreach).kept e he⟩, fun hroom => ?_⟩
  by_cases hholds : c.device.memory.scratchpad.Holds (j.params.localBase.toNat + j.scratch.total)
  · have hf := hj.finishes_depthwise (Nat.lt_trans (Job.shift_of_ofWords hmade.params) (by decide))
    obtain ⟨r, c', hrun, -⟩ := (hj.run_ends hf hholds (hj.room hroom)).ok_of_never fun _ => id
    exact ⟨r, c', hrun⟩
  · obtain ⟨_, _, _, c', hrefused, -⟩ := hj.run_refused Depthwise.kernel hholds
    exact ⟨_, c', hrefused⟩

/-- The run of the small layer on an empty memory keeps the bytes of others. -/
theorem run_touches_own_buffers_small : ∃ r c',
    smallJob.run Depthwise.kernel (.ofMemory (.empty 0x1000)) = .ok r c' ∧
      ∀ e, ¬ smallJob.Owns e → c'.device.memory.image e = (Memory.empty 0x1000).image e := by
  obtain ⟨-, -, hkept, -, hends⟩ := run_touches_own_buffers smallJob_accepted (by decide)
    smallJob_promised.toBounded (.ofMemory (.empty 0x1000))
  obtain ⟨r, c', hrun⟩ := hends fun t => by cases t <;> decide
  exact ⟨r, c', hrun, hkept r c' hrun⟩

end TileStream
