import TileStream.Proofs.Kernel.Confined
import TileStream.Proofs.Run.Accounting
import TileStream.Proofs.Run.Contents
import TileStream.Proofs.Transfer.Pending

/-! # The buffers of a call and the queue

The ranges of the call of tile `i` lie in the slots of the tile. While the tile
is computed nothing in the queue writes into them or reads from the range that
the call writes, so the leader counts no hazard. -/
namespace TileStream

open Unsigned

/-- A transfer writes into a range of the scratchpad. -/
def Descriptor.WritesInto (d : Descriptor) (r : Nat × Nat) : Prop :=
  ∃ p < d.byteCount, (d.target p).tier = .scratchpad ∧ r.1 ≤ (d.target p).addr ∧
    (d.target p).addr < r.1 + r.2

/-- A transfer reads from a range of the scratchpad. -/
def Descriptor.ReadsFrom (d : Descriptor) (r : Nat × Nat) : Prop :=
  ∃ p < d.byteCount, (d.source p).tier = .scratchpad ∧ r.1 ≤ (d.source p).addr ∧
    (d.source p).addr < r.1 + r.2

/-! ## Counting hazards -/

/-- A range whose bytes no queued transfer writes. The first byte counts even if the range is empty. -/
theorem Queue.writesInto_eq_false {q : Queue} {addr len : Nat}
    (hlimit : addr + len < 0x10000000000000000)
    (hfits : ∀ d ∈ q.pending, d.Fits ∧ 0 < d.byteCount)
    (hquiet : ∀ d ∈ q.pending, ∀ n < max len 1, ∀ p < d.byteCount,
      d.target p ≠ ⟨.scratchpad, addr + n⟩)
    (hgather : ∀ d ∈ q.pending, (d.target 0).tier = .scratchpad → d.direction = .gather) :
    q.writesInto .scratchpad addr len = .ok false := by
  have hword : ∀ d ∈ q.pending, d.loc.addr < wordLimit := by
    intro d hd
    obtain ⟨hfit, hpos⟩ := hfits d hd
    have hpacked := hfit.packed.resolve_left (Nat.ne_of_gt hpos)
    omega
  have hspans := fun d hd => (hfits d hd).1.toAddressed.destinationSpan_exists (hword d hd)
  obtain ⟨seen, hseen, hiff⟩ := writesInto_exists (q := q) (t := .scratchpad) hlimit fun d hd => by
    obtain ⟨lo, hi, hspan, -⟩ := hspans d hd
    exact ⟨(lo, hi), hspan⟩
  cases seen with
  | false => exact hseen
  | true =>
    obtain ⟨d, hd, htier, lo, hi, hspan, hlo, hhi⟩ := hiff.mp rfl
    obtain ⟨lo', hi', hspan', -, hpacked⟩ := hspans d hd
    rw [hspan'] at hspan
    cases hspan
    have hdir : d.direction = .gather := hgather d hd (by rw [d.target_tier, htier])
    obtain ⟨rfl, rfl⟩ := hpacked hdir
    have hpos := (hfits d hd).2
    -- the ranges meet at the higher one of their beginnings
    have hbyte : d.target (max d.loc.addr addr - d.loc.addr) =
        ⟨.scratchpad, addr + (max d.loc.addr addr - addr)⟩ := by
      rw [← htier]
      simp only [Descriptor.target, Descriptor.destination, hdir, Endpoint.mk.injEq, true_and]
      omega
    exact absurd hbyte (hquiet d hd _ (by omega) _ (by omega))

theorem Cluster.countHazards_eq_zero {q : Queue} {ranges : List (Nat × Nat)}
    (h : ∀ r ∈ ranges, q.writesInto .scratchpad r.1 r.2 = .ok false) :
    countHazards q ranges = .ok 0 := by
  unfold countHazards
  induction ranges with
  | nil => rfl
  | cons r rest ih =>
    rw [List.foldlM_cons]
    simp only [h r List.mem_cons_self, Checked.ok_bind, Bool.false_eq_true, if_false]
    exact ih fun r' hr' => h r' (List.mem_cons_of_mem r hr')

/-! ## The ranges of a call -/

namespace Job

variable {j : Job}

def readRangesAt (j : Job) (i : Nat) : List (Nat × Nat) :=
  [((j.callAt i).input, (j.callAt i).inputDims.size),
    ((j.callAt i).weights, (j.callAt i).channels * (j.callAt i).kernel * (j.callAt i).kernel),
    ((j.callAt i).kappa, (j.callAt i).channels * 4), ((j.callAt i).lambda, (j.callAt i).channels * 4)]

def writeRangeAt (j : Job) (i : Nat) : Nat × Nat :=
  ((j.callAt i).output, (j.callAt i).outputDims.size)

theorem windowBytes_eq (i : Nat) : j.windowBytes i = (j.callAt i).inputDims.size := by
  show _ * (_ * _) = _ * _ * _
  rw [Nat.mul_comm, Nat.mul_comm (j.geometry.inCols i).len]
  rfl

theorem Accepted.outputBytes_eq (h : j.Accepted) {i : Nat} (hi : i < j.tileCount) :
    (j.outputStore i).byteCount = (j.callAt i).outputDims.size := by
  rw [h.outputStore_bytes hi, Nat.mul_comm, Nat.mul_comm (j.geometry.outCols i).len]
  rfl

theorem Accepted.windowBytes_le (h : j.Accepted) {i : Nat} (hi : i < j.tileCount) :
    j.windowBytes i ≤ j.scratch.input.slotSize := by
  obtain ⟨hboxed, hfit⟩ := h.inputLoad_boxed hi
  refine Nat.le_trans ?_ hfit
  rw [hboxed.byteCount_eq]
  exact Nat.mul_le_mul_left _ (Nat.mul_le_mul (Nat.le_max_left _ 1) (Nat.le_max_left _ 1))

/-- The sizes of the ranges of a call, and of their slots. -/
theorem Accepted.call_sizes (h : j.Accepted) {i : Nat} (hi : i < j.tileCount) :
    (j.callAt i).inputDims.size ≤ j.scratch.input.slotSize ∧
      (j.callAt i).channels * (j.callAt i).kernel * (j.callAt i).kernel ≤ j.scratch.weights.slotSize ∧
      (j.callAt i).channels * 4 ≤ 4 * j.geometry.block.channels ∧ 0 < (j.callAt i).channels ∧
      (j.callAt i).outputDims.size ≤ j.scratch.output.slotSize ∧
      0 < (j.callAt i).outputDims.size := by
  obtain ⟨hpos, hle, -⟩ := h.chanLen_facts (blockOf_lt hi)
  obtain ⟨-, htaps, hfit⟩ := h.tapLoad_boxed (blockOf_lt hi)
  obtain ⟨hboxed, hout⟩ := h.outputStore_boxed hi
  have hwindow := h.windowBytes_le hi
  have hsize := hboxed.bytes_pos
  rw [windowBytes_eq] at hwindow
  rw [h.outputBytes_eq hi] at hout hsize
  have hchannels : (j.callAt i).channels = (j.geometry.chans (j.blockOf i)).len := rfl
  refine ⟨hwindow, ?_, by omega, by omega, hout, hsize⟩
  rw [htaps, taps, ← Nat.mul_assoc] at hfit
  exact hfit

theorem Accepted.slot_small (h : j.Accepted) (role : Role) :
    (j.scratch.slots role).slotSize ≤ 0x200000000000000 := by
  have := h.slot_low role .a
  omega

theorem Accepted.readRanges_eq (h : j.Accepted) {i : Nat} (hi : i < j.tileCount) :
    (j.callAt i).readRanges = .ok (j.readRangesAt i) := by
  obtain ⟨hinput, hweights, hwords, hpos, -, -⟩ := h.call_sizes hi
  have hin : j.scratch.input.slotSize ≤ 0x200000000000000 := h.slot_small .input
  have hw : j.scratch.weights.slotSize ≤ 0x200000000000000 := h.slot_small .weights
  have hr : j.scratch.requant.slotSize ≤ 0x200000000000000 := h.slot_small .requant
  have hrequant := h.scratch.requant_size
  have hkernel : 0 < (j.callAt i).kernel := h.tiled.rows.kernel_pos
  have hrow : (j.callAt i).channels * (j.callAt i).kernel ≤
      (j.callAt i).channels * (j.callAt i).kernel * (j.callAt i).kernel :=
    Nat.le_mul_of_pos_right _ hkernel
  rw [Call.readRanges, mul_of_lt (by omega), Checked.ok_bind, TileDims.bytes_of_le hinput (by omega) hpos,
    Checked.ok_bind, mul_of_lt (by omega), Checked.ok_bind, mul_of_lt (by omega), Checked.ok_bind]
  rfl

theorem Accepted.writeRange_eq (h : j.Accepted) {i : Nat} (hi : i < j.tileCount) :
    (j.callAt i).writeRange = .ok (j.writeRangeAt i) := by
  obtain ⟨-, -, -, hpos, houtput, -⟩ := h.call_sizes hi
  have hslot : j.scratch.output.slotSize ≤ 0x200000000000000 := h.slot_small .output
  rw [Call.writeRange, TileDims.bytes_of_le houtput (by omega) hpos, Checked.ok_bind]
  rfl

/-- What a call reads besides the window of its tile lies in the slots of the channel block. -/
theorem Accepted.readRange_cases (h : j.Accepted) {i : Nat} (hi : i < j.tileCount) {r : Nat × Nat}
    (hr : r ∈ j.readRangesAt i) : r = ((j.callAt i).input, (j.callAt i).inputDims.size) ∨
      ∀ n < max r.2 1, j.InSlot .weights (.of (j.blockOf i)) ⟨.scratchpad, r.1 + n⟩ ∨
        j.InSlot .requant (.of (j.blockOf i)) ⟨.scratchpad, r.1 + n⟩ := by
  obtain ⟨-, hweights, hwords, hpos, -, -⟩ := h.call_sizes hi
  have hbias := h.scratch.bias
  have hrequant := h.scratch.requant_size
  have hkernel := h.tiled.rows.kernel_pos
  have hweight := Nat.mul_pos (Nat.mul_pos hpos hkernel) hkernel
  change 0 < (j.callAt i).channels * (j.callAt i).kernel * (j.callAt i).kernel at hweight
  simp only [readRangesAt, List.mem_cons, List.not_mem_nil, or_false] at hr
  rcases hr with rfl | rfl | rfl | rfl
  · exact .inl rfl
  · exact .inr fun n hn => .inl (inSlot_of_lt (by show n < j.scratch.weights.slotSize; omega))
  · exact .inr fun n hn => .inr (inSlot_of_lt (by show n < j.scratch.requant.slotSize; omega))
  · refine .inr fun n hn => .inr ?_
    have hsplit : (j.callAt i).lambda + n = (j.padAt (j.scratch.slot .requant (.of (j.blockOf i)))).addr +
        (j.scratch.biasOffset + n) := by
      show j.params.localBase.toNat + (j.scratch.requant.slot _ + j.scratch.biasOffset) + n =
        j.params.localBase.toNat + j.scratch.requant.slot _ + _
      omega
    show j.InSlot .requant (.of (j.blockOf i)) ⟨.scratchpad, (j.callAt i).lambda + n⟩
    rw [hsplit]
    exact inSlot_of_lt (by show _ < j.scratch.requant.slotSize; omega)

/-- Every range of a call lies in a slot of its tile, and so does its first byte. -/
theorem Accepted.range_inCall (h : j.Accepted) {i : Nat} (hi : i < j.tileCount) {r : Nat × Nat}
    (hr : r ∈ j.readRangesAt i ++ [j.writeRangeAt i]) {n : Nat} (hn : n < max r.2 1) :
    j.InCall i ⟨.scratchpad, r.1 + n⟩ := by
  obtain ⟨hinput, -, -, -, houtput, hout⟩ := h.call_sizes hi
  have hroom := Nat.mul_pos (Nat.mul_pos (Axis.window_pos h.tiled.rows)
    (Axis.window_pos h.tiled.cols)) h.tiled.block_pos
  have hinputSize := h.scratch.input_size
  rcases List.mem_append.mp hr with hread | hwrite
  · rcases h.readRange_cases hi hread with rfl | hslots
    · exact .inl (inSlot_of_lt (by show n < j.scratch.input.slotSize; omega))
    · exact .inr (.inr (hslots n hn))
  · cases List.mem_singleton.mp hwrite
    have hn' : n < max (j.callAt i).outputDims.size 1 := hn
    exact .inr (.inl (inSlot_of_lt (by show n < j.scratch.output.slotSize; omega)))

theorem Accepted.range_lt (h : j.Accepted) {i : Nat} (hi : i < j.tileCount) {r : Nat × Nat}
    (hr : r ∈ j.readRangesAt i ++ [j.writeRangeAt i]) : r.1 + r.2 < 0x10000000000000000 := by
  obtain ⟨role, p, -, -, hhi⟩ := (h.range_inCall hi hr (n := max r.2 1 - 1) (by omega)).slot
  have hslot := h.slot_low role p
  simp only at hhi
  omega

theorem Accepted.writes_inSlot (h : j.Accepted) {i : Nat} (hi : i < j.tileCount) {e : Endpoint}
    (he : (j.callAt i).Writes e) : j.InSlot .output (.of i) e := by
  obtain ⟨-, -, -, -, houtput, -⟩ := h.call_sizes hi
  obtain ⟨htier, hlo, hhi⟩ := he
  exact ⟨htier, hlo, Nat.lt_of_lt_of_le hhi (Nat.add_le_add_left houtput _)⟩

end Job

/-! ## The queue during a computation -/

namespace Job.Accounted

variable {j : Job} {i since : Nat} {q : Queue} {threads : List Thread}

/-- What is in the queue while a tile is computed comes from the fetch before. -/
theorem fetched (h : j.Accounted (.compute i) since q threads) (hj : j.Accepted) {d : Descriptor}
    (hd : d ∈ q.pending) : d.IsBox ∧ ∃ w ∈ j.wholes (.fetch i), ∃ first, d.Part w first := by
  obtain ⟨id, hid⟩ := Queue.mem_pending_iff.mp hd
  obtain ⟨t, ht, n, hn⟩ := h.known id d hid
  have hsince : since ≤ id := by
    have hrunning := h.running t ht
    rcases (hrunning.issued n id hn).2 with hlt | hawait | ⟨hle, -⟩
    · exact absurd hid.1 (Nat.not_le_of_lt hlt)
    · obtain ⟨before, hbefore⟩ := hrunning.shaped
      have hin : Action.await n ∈ j.computeActions t.worker.member i :=
        hbefore ▸ List.mem_append_right before hawait
      unfold computeActions at hin
      cases hlead : t.worker.member.isLeader <;> simp [hlead] at hin
    · exact hle
  obtain ⟨u, hu, hsend⟩ := h.fresh id d hid hsince
  have hvalid : j.Valid (.fetch i) := Nat.le_of_lt h.valid
  exact ⟨hj.sends_box hvalid nofun (hj.member_lt hu).1 hsend,
    hj.sends_part hvalid (hj.member_lt hu).1 hsend⟩

theorem untouched (h : j.Accounted (.compute i) since q threads) (hj : j.Accepted) {e : Endpoint}
    (he : Untouched (j.wholes (.fetch i)) e) : Untouched q.pending e :=
  Covers.untouched_parts (fun _ hd => (h.fetched hj hd).2) he

theorem unread (h : j.Accounted (.compute i) since q threads) (hj : j.Accepted) {e : Endpoint}
    (he : Unread (j.wholes (.fetch i)) e) : Unread q.pending e :=
  Covers.unread_parts (fun _ hd => (h.fetched hj hd).2) he

theorem not_writesInto (h : j.Accounted (.compute i) since q threads) (hj : j.Accepted)
    {d : Descriptor} (hd : d ∈ q.pending) {r : Nat × Nat}
    (hr : r ∈ j.readRangesAt i ++ [j.writeRangeAt i]) : ¬ d.WritesInto r := by
  rintro ⟨p, hp, htier, hlo, hhi⟩
  have hcall := hj.range_inCall h.valid hr (n := (d.target p).addr - r.1) (by omega)
  refine h.untouched hj (hj.call_untouched h.valid hcall) d hd p hp ?_
  rw [Nat.add_sub_of_le hlo, ← htier]

theorem not_readsFrom (h : j.Accounted (.compute i) since q threads) (hj : j.Accepted)
    {d : Descriptor} (hd : d ∈ q.pending) : ¬ d.ReadsFrom (j.writeRangeAt i) := by
  rintro ⟨p, hp, htier, hlo, hhi⟩
  have hslot : j.InSlot .output (.of i) (d.source p) := hj.writes_inSlot h.valid ⟨htier, hlo, hhi⟩
  exact h.unread hj (hj.output_unread h.valid hslot) d hd p hp rfl

theorem no_hazard (h : j.Accounted (.compute i) since q threads) (hj : j.Accepted) :
    Cluster.countHazards q (j.readRangesAt i ++ [j.writeRangeAt i]) = .ok 0 := by
  refine Cluster.countHazards_eq_zero fun r hr => ?_
  refine Queue.writesInto_eq_false (hj.range_lt h.valid hr) (fun d hd => ?_) (fun d hd n hn p hp => ?_)
    fun d hd htier => ?_
  · exact ⟨(h.fetched hj hd).1.fits, (h.fetched hj hd).1.bytes_pos⟩
  · exact h.untouched hj (hj.call_untouched h.valid (hj.range_inCall h.valid hr hn)) d hd p hp
  · obtain ⟨hbox, w, hw, first, hpart⟩ := h.fetched hj hd
    have hpos := hbox.bytes_pos
    have hwithin := hpart.within
    rw [hpart.direction]
    rw [hpart.target 0 hpos] at htier
    rcases mem_wholes_fetch hw with ⟨k, rfl, rfl⟩ | ⟨-, rfl⟩ | ⟨hchange, hin⟩
    · have hk : k < j.geometry.tileGrid.size := Nat.lt_of_succ_lt h.valid
      have hout := (hj.outputStore_moves hk (p := first + 0) (by omega)).2
      rw [hout.1] at htier
      cases htier
    · rfl
    · exact (hj.weightLoads_moves (blockOf_lt (changesAt_lt hchange).1) hin).1

end Job.Accounted

end TileStream
