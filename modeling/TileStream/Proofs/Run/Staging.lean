import TileStream.Proofs.Run.Invariant
import TileStream.Proofs.Run.WholeRun

/-! # What staging copies

With an external slow tier the leader copies the input tensor and the weight blob
into mid memory before the run, and the output tensor back after it. A size keeps
its low 32 bits on the way into the transfer, so each copy brings exactly the
bytes below these (`staging_copies_low_bytes`): all of them if the size is
below `2 ^ 32`, and not even the first of a tensor of exactly `2 ^ 32` bytes
(`staging_drops_tensor`). -/
namespace TileStream

/-! ## Bringing transfers -/

namespace Device

/-- What is queued can be retired: every transfer fits, and the read counters have room for all of them. -/
structure Retirable (s : Device) : Prop where
  depth : 0 < s.queue.depth
  fits : ∀ e ∈ s.queue.pending, e.Fits
  room : ∀ t, s.readTotal t < wordLimit

variable {s s' : Device} {d : Descriptor}

theorem Retirable.submit (h : s.Retirable) (hd : d.Fits)
    (hroom : ∀ t, s.readTotal t + readBytes t [d] < wordLimit) :
    ∃ s', Device.submit d s = .ok s.queue.nextId s' ∧ s'.Retirable ∧ Submitted d s s' := by
  obtain ⟨id, s', hsubmit⟩ := submit_exists (d := d) h.depth h.fits h.room
  obtain ⟨hsubmitted, rfl⟩ :=
    submit_inv h.depth (fun e he => (h.fits e he).toAddressed) hsubmit
  refine ⟨s', hsubmit, ⟨?_, ?_, ?_⟩, hsubmitted⟩
  · rw [hsubmitted.queue]
    exact h.depth
  · intro e he
    rcases hsubmitted.mem_pending he with hold | rfl
    · exact h.fits e hold
    · exact hd
  · intro t
    rw [hsubmitted.readTotal]
    exact hroom t

theorem Retirable.wait (h : s.Retirable) (id : Nat) :
    ∃ s', Device.wait id s = .ok () s' ∧ s'.Retirable ∧ Retired (s.queue.before id) s s' := by
  obtain ⟨s', hwait⟩ := wait_exists id h.fits h.room
  have hretired := wait_inv (fun e he => (h.fits e he).toAddressed) hwait
  refine ⟨s', hwait, ⟨?_, ?_, ?_⟩, hretired⟩
  · rw [hretired.queue]
    exact h.depth
  · rw [hretired.queue]
    exact fun e he => h.fits e (List.mem_of_mem_drop he)
  · intro t
    rw [hretired.readTotal]
    exact h.room t

end Device

namespace Cluster

variable (kernel : Kernel) (u : Member)

theorem push_append_eq (issued : Array Nat) (id : Nat) (ids : List Nat) :
    issued.push id ++ ids.toArray = issued ++ (id :: ids).toArray := by
  apply Array.ext'
  simp

theorem submits_exists {ds : List Descriptor} (hfits : ∀ d ∈ ds, d.Fits) {c : Cluster}
    (h : c.device.Retirable) (hroom : ∀ t, c.device.readTotal t + readBytes t ds < wordLimit)
    (issued : Array Nat) :
    ∃ c', (ds.map Action.submit).foldlM (perform kernel u) issued c =
        .ok (issued ++ (List.range' c.device.queue.nextId ds.length).toArray) c' ∧
      c'.device.Retirable ∧ c'.device.settled = c.device.settled.applyAll ds ∧
      c'.device.queue.nextId = c.device.queue.nextId + ds.length := by
  induction ds generalizing c issued with
  | nil => exact ⟨c, by simp, h, rfl, rfl⟩
  | cons d ds ih =>
    have hone : ∀ t, readBytes t (d :: ds) = readBytes t [d] + readBytes t ds := fun t =>
      readBytes_append t [d] ds
    obtain ⟨device, hsubmit, hretirable, hsubmitted⟩ := h.submit (hfits d List.mem_cons_self)
      fun t => by have := hroom t; rw [hone] at this; omega
    obtain ⟨c', hrest, hretirable', hsettled, hnext⟩ := ih (c := { c with device })
      (fun e he => hfits e (List.mem_cons_of_mem d he)) hretirable
      (fun t => by
        have := hroom t
        rw [hone] at this
        show device.readTotal t + _ < _
        rw [hsubmitted.readTotal]
        omega) (issued.push c.device.queue.nextId)
    have hnextId := hsubmitted.nextId h.depth
    refine ⟨c', ?_, hretirable', ?_, ?_⟩
    · rw [List.map_cons, List.foldlM_cons,
        Stateful.bind_of_ok (perform_submit.mpr ⟨_, device, hsubmit, rfl, rfl⟩), hrest]
      show EStateM.Result.ok (issued.push _ ++ (List.range' device.queue.nextId _).toArray) c' = _
      rw [hnextId, push_append_eq, List.length_cons, List.range'_succ]
    · rw [hsettled]
      show device.settled.applyAll ds = _
      rw [hsubmitted.settled]
      rfl
    · rw [hnext, List.length_cons]
      show device.queue.nextId + _ = _
      omega

/-- Waiting retires in order: every transfer that was waited for has left the queue. -/
theorem awaits_exists (ns : List Nat) {c : Cluster} (h : c.device.Retirable) (issued : Array Nat) :
    ∃ c', (ns.map Action.await).foldlM (perform kernel u) issued c = .ok issued c' ∧
      c'.device.settled = c.device.settled ∧ c'.device.queue.nextId = c.device.queue.nextId ∧
      c.device.queue.retired ≤ c'.device.queue.retired ∧
      ∀ n ∈ ns, ∀ id, issued[n]? = some id → id < c.device.queue.nextId →
        id < c'.device.queue.retired := by
  induction ns generalizing c with
  | nil => exact ⟨c, rfl, rfl, rfl, Nat.le_refl _, fun _ hn => by cases hn⟩
  | cons n ns ih =>
    cases hissued : issued[n]? with
    | none =>
      obtain ⟨c', hrest, hsettled, hnext, hretired, hwaited⟩ := ih h
      refine ⟨c', ?_, hsettled, hnext, hretired, fun m hm id hid hlt => ?_⟩
      · have hskip : perform kernel u issued (.await n) c = .ok issued c :=
          perform_await.mpr ⟨rfl, by rw [hissued]⟩
        rw [List.map_cons, List.foldlM_cons, Stateful.bind_of_ok hskip, hrest]
      · rcases List.mem_cons.mp hm with rfl | hm
        · cases hissued.symm.trans hid
        · exact hwaited m hm id hid hlt
    | some first =>
      obtain ⟨device, hwait, hretirable, hstep⟩ := h.wait first
      obtain ⟨c', hrest, hsettled, hnext, hretired, hwaited⟩ :=
        ih (c := { c with device }) hretirable
      change c'.device.settled = device.settled at hsettled
      change c'.device.queue.nextId = device.queue.nextId at hnext
      change device.queue.retired ≤ _ at hretired
      have hnextId : device.queue.nextId = c.device.queue.nextId := by
        rw [hstep.queue, Queue.nextId_after (Queue.before_le _ _)]
      have hretiredNow : device.queue.retired =
          c.device.queue.retired + c.device.queue.before first := by
        rw [hstep.queue]
        rfl
      refine ⟨c', ?_, hsettled.trans hstep.settled, hnext.trans hnextId, by omega,
        fun m hm id hid hlt => ?_⟩
      · have hfirst : perform kernel u issued (.await n) c = .ok issued { c with device } :=
          perform_await.mpr ⟨rfl, by rw [hissued]; exact ⟨device, hwait, rfl⟩⟩
        rw [List.map_cons, List.foldlM_cons, Stateful.bind_of_ok hfirst, hrest]
      · rcases List.mem_cons.mp hm with rfl | hm
        · cases hissued.symm.trans hid
          unfold Queue.before Queue.inFlight at hretiredNow
          unfold Queue.nextId at hlt
          omega
        · exact hwaited m hm id hid (by
            show id < device.queue.nextId
            omega)

/-- A unit that brings transfers on an idle queue leaves it idle, with every transfer moved in order. -/
theorem bring_exists {ds : List Descriptor} (hfits : ∀ d ∈ ds, d.Fits) {c : Cluster}
    (hdepth : 0 < c.device.queue.depth) (hidle : c.device.queue.pending = [])
    (hroom : ∀ t, c.device.memory.readCount t + readBytes t ds < wordLimit) (issued : Array Nat) :
    ∃ issued' c', (bring issued.size ds).foldlM (perform kernel u) issued c = .ok issued' c' ∧
      c'.device.queue.pending = [] ∧
      c'.device.memory.image = c.device.memory.image.applyAll ds := by
  have htotal : ∀ t, c.device.readTotal t = c.device.memory.readCount t := by
    intro t
    rw [Device.readTotal, hidle]
    rfl
  have hretirable : c.device.Retirable := by
    refine ⟨hdepth, ?_, fun t => ?_⟩
    · rw [hidle]
      exact fun e he => by cases he
    · rw [htotal]
      exact Nat.lt_of_le_of_lt (Nat.le_add_right _ _) (hroom t)
  obtain _ | ⟨d, ds⟩ := ds
  · exact ⟨issued, c, rfl, hidle, rfl⟩
  obtain ⟨c₁, hsubmits, hretirable₁, hsettled₁, hnext₁⟩ := submits_exists kernel u
    hfits hretirable (fun t => by rw [htotal]; exact hroom t) issued
  obtain ⟨c', hawaits, hsettled, hnext, -, hwaited⟩ := awaits_exists kernel u
    (List.range' issued.size (d :: ds).length) hretirable₁
    (issued ++ (List.range' c.device.queue.nextId (d :: ds).length).toArray)
  have hpending : c'.device.queue.pending = [] := by
    -- the last transfer has been waited for, and none was submitted after it
    have hlast := hwaited (issued.size + ds.length) (by simp [List.mem_range'_1])
      (c.device.queue.nextId + ds.length) (by simp) (by
        rw [hnext₁, List.length_cons]
        omega)
    rw [hnext₁, Queue.nextId, List.length_cons] at hnext
    exact List.eq_nil_of_length_eq_zero (by omega)
  have himage : c'.device.settled = c'.device.memory.image := by
    rw [Device.settled, hpending]
    rfl
  have hbring : (bring issued.size (d :: ds)).foldlM (perform kernel u) issued c =
      .ok (issued ++ (List.range' c.device.queue.nextId (d :: ds).length).toArray) c' := by
    rw [bring, List.foldlM_append, Stateful.bind_of_ok hsubmits, hawaits]
  refine ⟨_, c', hbring, hpending, ?_⟩
  rw [← himage, hsettled, hsettled₁, Device.settled, hidle]
  rfl

end Cluster

/-! ## The stages of a job -/

namespace Job

variable {j : Job} {before after : Image}

/-- What the leader copies into mid memory: the parts of the input tensor and of the blob below the low 32
bits of their sizes, and nothing else. -/
structure StagedIn (j : Job) (before after : Image) : Prop where
  input : ∀ o < low32 j.inputBytes, after ⟨.mid, j.params.midInput.toNat + o⟩ =
    before ⟨.slow, j.params.slowInput.toNat + o⟩
  blob : ∀ o < low32 j.blob.total, after ⟨.mid, j.params.midWeights.toNat + o⟩ =
    before ⟨.slow, j.params.slowWeights.toNat + o⟩
  rest : ∀ e, ¬ InMid j.params.midInput.toNat (low32 j.inputBytes) e →
    ¬ InMid j.params.midWeights.toNat (low32 j.blob.total) e → after e = before e

/-- What the leader copies back to slow memory. -/
structure StagedOut (j : Job) (before after : Image) : Prop where
  output : ∀ o < low32 j.outputBytes, after ⟨.slow, j.params.slowOutput.toNat + o⟩ =
    before ⟨.mid, j.params.midOutput.toNat + o⟩
  rest : ∀ e, (e.tier = .slow → e.addr < j.params.slowOutput.toNat ∨
    j.params.slowOutput.toNat + low32 j.outputBytes ≤ e.addr) → after e = before e

end Job

namespace Job

variable {j : Job}

theorem staging_gather_apply (slow mid : UInt32) (bytes : Nat) (img : Image) (e : Endpoint) :
    (staging .gather slow mid bytes).apply img e =
      if e.tier = .mid ∧ mid.toNat ≤ e.addr ∧ e.addr < mid.toNat + low32 bytes then
        img ⟨.slow, slow.toNat + (e.addr - mid.toNat)⟩
      else img e := by
  rw [Descriptor.apply, byteCount_staging, ← Image.spread_consecutive _ _ _ _
    fun p => img ⟨.slow, slow.toNat + p⟩]
  refine congrFun (Image.spread_congr (fun p hp => ?_) fun p hp => ?_) e
  · exact (staging_gather slow mid hp).2
  · rw [(staging_gather slow mid hp).1]

theorem staging_scatter_apply (slow mid : UInt32) (bytes : Nat) (img : Image) (e : Endpoint) :
    (staging .scatter slow mid bytes).apply img e =
      if e.tier = .slow ∧ slow.toNat ≤ e.addr ∧ e.addr < slow.toNat + low32 bytes then
        img ⟨.mid, mid.toNat + (e.addr - slow.toNat)⟩
      else img e := by
  rw [Descriptor.apply, byteCount_staging, ← Image.spread_consecutive _ _ _ _
    fun p => img ⟨.mid, mid.toNat + p⟩]
  refine congrFun (Image.spread_congr (fun p hp => ?_) fun p hp => ?_) e
  · exact (staging_scatter slow mid hp).2
  · rw [(staging_scatter slow mid hp).1]

theorem stagedIn_applyAll (hapart : Apart j.params.midInput.toNat j.inputBytes
    j.params.midWeights.toNat j.blob.total) (img : Image) :
    j.StagedIn img (img.applyAll [j.inputStage, j.stageWeights]) := by
  have hboth : ∀ e, img.applyAll [j.inputStage, j.stageWeights] e = _ := fun e =>
    staging_gather_apply j.params.slowWeights j.params.midWeights j.blob.total
      (j.inputStage.apply img) e
  have hfirst : ∀ e, j.inputStage.apply img e = _ := fun e =>
    staging_gather_apply j.params.slowInput j.params.midInput j.inputBytes img e
  have hinput : low32 j.inputBytes ≤ j.inputBytes := Nat.mod_le _ _
  have hblob : low32 j.blob.total ≤ j.blob.total := Nat.mod_le _ _
  unfold Apart at hapart
  refine ⟨fun o ho => ?_, fun o ho => ?_, fun e hin hbl => ?_⟩
  · rw [hboth, if_neg (by simp only; omega), hfirst, if_pos ⟨rfl, by simp only; omega⟩]
    simp only [Nat.add_sub_cancel_left]
  · rw [hboth, if_pos ⟨rfl, by simp only; omega⟩, hfirst, if_neg (by simp)]
    simp only [Nat.add_sub_cancel_left]
  · unfold InMid at hin hbl
    rw [hboth, if_neg hbl, hfirst, if_neg hin]

theorem stagedOut_applyAll (img : Image) : j.StagedOut img (img.applyAll [j.outputStage]) := by
  have hone : ∀ e, img.applyAll [j.outputStage] e = _ := fun e =>
    staging_scatter_apply j.params.slowOutput j.params.midOutput j.outputBytes img e
  refine ⟨fun o ho => ?_, fun e he => ?_⟩
  · rw [hone, if_pos ⟨rfl, by simp only; omega⟩]
    simp only [Nat.add_sub_cancel_left]
  · rw [hone, if_neg]
    rintro ⟨htier, hlo, hhi⟩
    have := he htier
    omega

/-- A unit whose segment brings transfers runs it on an idle queue. -/
theorem runSegment_bring {kernel : Kernel} {w : Worker} {ds : List Descriptor} {progress : Progress}
    (hsegment : w.progress.segment j w.member = (bring w.progress.submitted ds, progress))
    (hissued : w.issued.size = w.progress.submitted) (hfits : ∀ d ∈ ds, d.Fits) {c : Cluster}
    (hdepth : 0 < c.device.queue.depth) (hidle : c.device.queue.pending = [])
    (hroom : ∀ t, c.device.memory.readCount t + readBytes t ds < wordLimit) :
    ∃ w' c', w.runSegment kernel j c = .ok w' c' ∧
      c'.device.memory.image = c.device.memory.image.applyAll ds := by
  obtain ⟨issued, c', hbring, -, himage⟩ := Cluster.bring_exists kernel w.member
    hfits hdepth hidle hroom w.issued
  rw [hissued] at hbring
  refine ⟨{ w with progress, issued }, c', ?_, himage⟩
  rw [Worker.runSegment, hsegment]
  exact (Stateful.bind_of_ok hbring).trans rfl

/-- The tensors of an admitted job have as many bytes as elements, if that is a word. -/
theorem Admitted.stageInput_eq (h : j.Admitted) (hword : j.inputBytes < wordLimit) :
    j.stageInput = .ok j.inputStage := by
  have hbytes : j.tiles.input.bytes = .ok j.inputBytes := by
    rw [h.tiles_eq]
    exact Tensor.bytes_of_bits rfl h.tiled.cols.extent_pos hword
  rw [stageInput, hbytes, Checked.ok_bind]
  rfl

theorem Admitted.stageOutput_eq (h : j.Admitted) (hword : j.outputBytes < wordLimit) :
    j.stageOutput = .ok j.outputStage := by
  have hbytes : j.tiles.output.bytes = .ok j.outputBytes := by
    rw [h.tiles_eq]
    exact Tensor.bytes_of_bits rfl j.geometry.cols.outs_pos hword
  rw [stageOutput, hbytes, Checked.ok_bind]
  rfl

theorem readBytes_stageIn (j : Job) (t : Tier) :
    readBytes t [j.inputStage, j.stageWeights] < 0x200000000 := by
  have hinput : j.inputStage.byteCount < 0x100000000 := by
    rw [inputStage, byteCount_staging]
    exact Nat.mod_lt _ (by decide)
  have hblob : j.stageWeights.byteCount < 0x100000000 := by
    rw [stageWeights, byteCount_staging]
    exact Nat.mod_lt _ (by decide)
  simp only [readBytes]
  split <;> split <;> omega

theorem readBytes_stageOut (j : Job) (t : Tier) :
    readBytes t [j.outputStage] < 0x100000000 := by
  have houtput : j.outputStage.byteCount < 0x100000000 := by
    rw [outputStage, byteCount_staging]
    exact Nat.mod_lt _ (by decide)
  simp only [readBytes]
  split <;> omega

/-- A leader at one of its stages, with the queue numbers of all it has submitted, and an idle engine whose
counters have room. -/
structure Attends (w : Worker) (c : Cluster) : Prop where
  leader : w.member.isLeader = true
  issued : w.issued.size = w.progress.submitted
  depth : 0 < c.device.queue.depth
  idle : c.device.queue.pending = []
  room : ∀ t, c.device.memory.readCount t < 0x8000000000000000

variable {w : Worker} {c : Cluster}

theorem Admitted.stageIn_runs (h : j.Admitted) (kernel : Kernel) (hword : j.inputBytes < wordLimit)
    (hw : Attends w c) (hstage : w.progress.stage = .stageIn) :
    ∃ w' c', w.runSegment kernel j c = .ok w' c' ∧
      c'.device.memory.image = c.device.memory.image.applyAll [j.inputStage, j.stageWeights] := by
  have hdraft := stageIn_eq (u := w.member) (h.stageInput_eq hword) w.progress
  have hled : w.member.leads (j.led .stageIn) = [j.inputStage, j.stageWeights] := if_pos hw.leader
  rw [hled] at hdraft
  refine runSegment_bring (Progress.segment_of_draft (by rw [hstage]; exact hdraft)) hw.issued ?_
    hw.depth hw.idle fun t => ?_
  · intro d hd
    rcases List.mem_pair.mp hd with rfl | rfl
    · exact staging_fits _ _ _ _
    · exact staging_fits _ _ _ _
  · have hbytes := j.readBytes_stageIn t
    have hroom := hw.room t
    unfold wordLimit
    omega

theorem Admitted.stageOut_runs (h : j.Admitted) (kernel : Kernel) (hword : j.outputBytes < wordLimit)
    (hw : Attends w c) (hstage : w.progress.stage = .stageOut) :
    ∃ w' c', w.runSegment kernel j c = .ok w' c' ∧
      c'.device.memory.image = c.device.memory.image.applyAll [j.outputStage] := by
  have hdraft := stageOut_eq (u := w.member) (h.stageOutput_eq hword) w.progress
  have hled : w.member.leads (j.led .stageOut) = [j.outputStage] := if_pos hw.leader
  rw [hled] at hdraft
  refine runSegment_bring (Progress.segment_of_draft (by rw [hstage]; exact hdraft)) hw.issued ?_
    hw.depth hw.idle fun t => ?_
  · intro d hd
    cases List.mem_singleton.mp hd
    exact staging_fits _ _ _ _
  · have hbytes := j.readBytes_stageOut t
    have hroom := hw.room t
    unfold wordLimit
    omega

end Job

/-- **What staging copies**, for every accepted job with any capacity and sizes, whose tensors have a size
and whose input and blob lie apart in mid memory: the leader's first segment returns, and leaves the bytes
of the input tensor and of the blob below the low 32 bits of their sizes in mid memory as they are in slow
memory; its last segment does so with the output tensor. No other byte changes, so exactly the
tensors shorter than `2 ^ 32` bytes are copied whole. -/
theorem staging_copies_low_bytes {g : Geometry} {p : Params} {settings : Settings} {j : Job}
    (h : (Job.create g p settings).run = .ok (.ok j)) (hinput : j.inputBytes < wordLimit)
    (houtput : j.outputBytes < wordLimit)
    (hapart : Apart p.midInput.toNat j.inputBytes p.midWeights.toNat j.blob.total) (kernel : Kernel)
    {w : Worker} {c : Cluster} (hw : Job.Attends w c) :
    (w.progress.stage = .stageIn → ∃ w' c', w.runSegment kernel j c = .ok w' c' ∧
      j.StagedIn c.device.memory.image c'.device.memory.image) ∧
    (w.progress.stage = .stageOut → ∃ w' c', w.runSegment kernel j c = .ok w' c' ∧
      j.StagedOut c.device.memory.image c'.device.memory.image) := by
  obtain ⟨hj, -, rfl, -⟩ := Job.admitted_of_create h
  refine ⟨fun hstage => ?_, fun hstage => ?_⟩
  · obtain ⟨w', c', hrun, himage⟩ := hj.stageIn_runs kernel hinput hw hstage
    refine ⟨w', c', hrun, ?_⟩
    rw [himage]
    exact Job.stagedIn_applyAll hapart _
  · obtain ⟨w', c', hrun, himage⟩ := hj.stageOut_runs kernel houtput hw hstage
    refine ⟨w', c', hrun, ?_⟩
    rw [himage]
    exact Job.stagedOut_applyAll _

/-- The leader of a team of one, at a stage at which it has submitted nothing. -/
def soleLeader (stage : Stage) : Worker := ⟨⟨0, 1⟩, { (default : Progress) with stage }, #[]⟩

theorem soleLeader_attends (stage : Stage) {m : Memory}
    (hroom : ∀ t, m.readCount t < 0x8000000000000000) :
    Job.Attends (soleLeader stage) (.ofMemory m) := ⟨rfl, rfl, Nat.one_pos, rfl, hroom⟩

/-- The leader of the small layer copies in and out. -/
theorem staging_copies_low_bytes_small :
    (∃ w' c', (soleLeader .stageIn).runSegment Depthwise.kernel smallJob
        (.ofMemory (.empty 0x1000)) = .ok w' c' ∧
      smallJob.StagedIn (Memory.empty 0x1000).image c'.device.memory.image) ∧
    ∃ w' c', (soleLeader .stageOut).runSegment Depthwise.kernel smallJob
        (.ofMemory (.empty 0x1000)) = .ok w' c' ∧
      smallJob.StagedOut (Memory.empty 0x1000).image c'.device.memory.image := by
  have haccepted : (Job.create smallLayer smallJob.params smallSettings).run = .ok (.ok smallJob) := rfl
  have hin := staging_copies_low_bytes haccepted (by decide) (by decide) (by decide) Depthwise.kernel
    (soleLeader_attends .stageIn smallMemory_unread)
  have hout := staging_copies_low_bytes haccepted (by decide) (by decide) (by decide) Depthwise.kernel
    (soleLeader_attends .stageOut smallMemory_unread)
  exact ⟨hin.1 rfl, hout.2 rfl⟩

/-- A layer whose input has `2 ^ 32` bytes, of which it reads the first. -/
def hugeLayer : Geometry where
  input := ⟨1, 0x10000, 0x10000⟩
  kernel := 1
  stride := 0x10000
  padding := .uniform 0
  block := ⟨1, 1, 1⟩
  elementBits := 8
  workspaceBytes := 0

/-- Its tensors lie in external memory, the input in the upper half of the first `2 ^ 32` bytes. -/
def hugeWords : List UInt32 :=
  [0x80000000, 0x2000, 0x1000, 0x80000000, 0, 0x2000, 0x1000, 0, 1, 0, 0, 0, 0]

def hugeJob : Job :=
  match (Job.ofWords hugeLayer hugeWords .standard).run with
  | .ok (.ok j) => j
  | _ => default

/-- A memory that holds nothing but the first byte of this input. -/
def markedMemory : Memory :=
  { Memory.empty 0x10000 with
    slow := { Bank.empty .slow none with pages := Pages.empty.write 0x80000000 [7] } }

theorem hugeJob_accepted : (Job.create hugeLayer hugeJob.params .standard).run = .ok (.ok hugeJob) := rfl

/-- Not even the first byte of a tensor of `2 ^ 32` bytes is copied, though the layer is accepted and its
tensors lie apart. -/
theorem staging_drops_tensor :
    (Job.create hugeLayer hugeJob.params .standard).run = .ok (.ok hugeJob) ∧
    hugeJob.params.slowIsExternal = true ∧ hugeJob.inputBytes = 0x100000000 ∧
    hugeJob.TensorsApart ∧
    ∃ w' c', (soleLeader .stageIn).runSegment Depthwise.kernel hugeJob (.ofMemory markedMemory) =
        .ok w' c' ∧
      markedMemory.image ⟨.slow, hugeJob.params.slowInput.toNat⟩ = 7 ∧
      c'.device.memory.image ⟨.mid, hugeJob.params.midInput.toNat⟩ = 0 := by
  obtain ⟨hj, -⟩ := Job.admitted_of_create hugeJob_accepted
  have hattends : Job.Attends (soleLeader .stageIn) (.ofMemory markedMemory) :=
    soleLeader_attends .stageIn fun t => by cases t <;> decide
  obtain ⟨w', c', hrun, himage⟩ := hj.stageIn_runs Depthwise.kernel (by decide) hattends rfl
  have hstaged := Job.stagedIn_applyAll (j := hugeJob) (by decide) markedMemory.image
  replace hstaged : hugeJob.StagedIn markedMemory.image c'.device.memory.image := himage ▸ hstaged
  refine ⟨hugeJob_accepted, rfl, rfl, ⟨by decide, by decide, by decide⟩, w', c', hrun, ?_, ?_⟩
  · show Pages.byteAt (Pages.empty.write 0x80000000 [7]) 0x80000000 = 7
    rw [Pages.byteAt_write]
    rfl
  · rw [hstaged.rest _ (fun hin => absurd hin.2.2 (by decide)) fun hin => absurd hin.2.2 (by decide)]
    exact Pages.byteAt_empty _

end TileStream
