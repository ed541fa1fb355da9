import Mathlib.Order.Interval.Set.Defs
import TileStream.Proofs.Transfer.InOrder
import TileStream.Proofs.Transfer.Shares

/-! # What the queue is about to write

A gathering transfer writes exactly its span. A scattering one writes between its
lowest and its highest byte, so the span may hold bytes that it leaves alone. The
query for a range therefore misses no byte that a queued transfer will write, and
it is exact where only gathering transfers of some bytes write to the tier. -/
namespace TileStream

open Unsigned

/-- A transfer writes a byte of a set of addresses of a tier. -/
def Descriptor.Writes (d : Descriptor) (t : Tier) (addrs : Set Nat) : Prop :=
  ∃ p < d.byteCount, (d.target p).tier = t ∧ (d.target p).addr ∈ addrs

/-! ## The span of a transfer -/

namespace Shape

/-- No run reaches past the last address, not even an empty one. -/
theorem Addressed.end_lt {s : Shape} {base : Nat} (h : s.Addressed base) {j : Nat} (hj : j < s.runs) :
    s.runAt base j + s.runBytes < wordLimit := by
  have haddr := h.address hj
  obtain ⟨middle, -, haddr⟩ := Checked.bind_eq_ok.mp haddr
  obtain ⟨outer, -, haddr⟩ := Checked.bind_eq_ok.mp haddr
  obtain ⟨offset, -, haddr⟩ := Checked.bind_eq_ok.mp haddr
  obtain ⟨z, hz, haddr⟩ := Checked.bind_eq_ok.mp haddr
  obtain ⟨⟨hlo, hhi⟩, rfl⟩ := Signed.add_eq_ok_iff.mp hz
  have hword : s.runAt base j < wordLimit := by
    rw [← Checked.pure_eq_ok.mp haddr]
    unfold unsigned wordLimit
    split <;> omega
  rcases h.fits hj with hempty | hend
  · rw [hempty]
    exact hword
  · exact hend

end Shape

/-- Extending a range by runs keeps what it holds and takes in every run. -/
theorem foldlM_extend {bytes : Nat} {starts : List Nat} (h : ∀ a ∈ starts, a + bytes < wordLimit)
    (range : Nat × Nat) : ∃ lo hi,
      starts.foldlM (fun r a => do return (min r.1 a, max r.2 (← add a bytes))) range =
        (.ok (lo, hi) : Checked (Nat × Nat)) ∧
      lo ≤ range.1 ∧ range.2 ≤ hi ∧ ∀ a ∈ starts, lo ≤ a ∧ a + bytes ≤ hi := by
  induction starts generalizing range with
  | nil => exact ⟨range.1, range.2, rfl, Nat.le_refl _, Nat.le_refl _, by simp⟩
  | cons a rest ih =>
    obtain ⟨hfirst, hrest⟩ := List.forall_mem_cons.mp h
    obtain ⟨lo, hi, hfold, hlo, hhi, hall⟩ := ih hrest (min range.1 a, max range.2 (a + bytes))
    refine ⟨lo, hi, ?_, by omega, by omega, ?_⟩
    · rw [List.foldlM_cons, add_of_lt hfirst]
      exact hfold
    · intro a' ha'
      rcases List.mem_cons.mp ha' with rfl | hin
      · constructor <;> omega
      · exact hall a' hin

namespace Descriptor

variable {d : Descriptor}

/-- A strided byte is a byte of its run. -/
theorem byteAddress_bounds (d : Descriptor) {p : Nat} (hp : p < d.byteCount) :
    ∃ j < d.shape.runs, d.shape.runAt d.ext.addr j ≤ d.shape.byteAddress d.ext.addr p ∧
      d.shape.byteAddress d.ext.addr p < d.shape.runAt d.ext.addr j + d.shape.runBytes := by
  have hrun : 0 < d.shape.runBytes := Nat.pos_of_mul_pos_right (Nat.zero_lt_of_lt hp)
  have hmod := Nat.mod_lt p hrun
  refine ⟨p / d.shape.runBytes, Nat.div_lt_of_lt_mul hp, ?_, ?_⟩ <;>
    simp only [Shape.byteAddress] <;> omega

/-- **The span of a transfer** holds every byte that it writes, and no other one if it gathers. -/
theorem Addressed.destinationSpan_exists (h : d.Addressed) (hword : d.loc.addr < wordLimit) :
    ∃ lo hi, d.destinationSpan = .ok (lo, hi) ∧
      (∀ p < d.byteCount, lo ≤ (d.target p).addr ∧ (d.target p).addr < hi) ∧
      (d.direction = .gather → lo = d.loc.addr ∧ hi = d.loc.addr + d.byteCount) := by
  unfold destinationSpan
  cases hdir : d.direction with
  | gather =>
    have hend : d.loc.addr + d.byteCount < wordLimit := by
      rcases h.packed with hempty | hend
      · rw [hempty]
        exact hword
      · exact hend
    have htotal : d.totalBytes = .ok d.byteCount :=
      Shape.totalBytes_eq_ok_iff.mpr ⟨Nat.lt_of_le_of_lt (Nat.le_add_left _ _) hend, rfl⟩
    refine ⟨d.loc.addr, d.loc.addr + d.byteCount, ?_, ?_, fun _ => ⟨rfl, rfl⟩⟩
    · simp only [htotal, Checked.ok_bind, add_of_lt hend]
      rfl
    · intro p hp
      simp only [target, hdir]
      omega
  | scatter =>
    have hstarts : ∀ a ∈ (List.range d.shape.runs).map (d.shape.runAt d.ext.addr),
        a + d.shape.runBytes < wordLimit := by
      intro a ha
      obtain ⟨j, hj, rfl⟩ := List.mem_map.mp ha
      exact h.runs.end_lt (List.mem_range.mp hj)
    obtain ⟨lo, hi, hfold, -, -, hall⟩ := foldlM_extend hstarts (wordLimit - 1, 0)
    have hrun : ∀ j < d.shape.runs, lo ≤ d.shape.runAt d.ext.addr j ∧
        d.shape.runAt d.ext.addr j + d.shape.runBytes ≤ hi := by
      intro j hj
      exact hall _ (List.mem_map_of_mem (List.mem_range.mpr hj))
    -- there is a first run, so the range has been extended
    have hle : ¬ hi < lo := by
      have := hrun 0 d.shape.runs_pos
      omega
    refine ⟨lo, hi, ?_, ?_, fun h => by cases h⟩
    · rw [List.foldlM_map] at hfold
      simp only [RunCursor.visit_start _ h.runs, hfold, Checked.ok_bind, if_neg hle]
      rfl
    · intro p hp
      obtain ⟨j, hj, hlo, hhi⟩ := d.byteAddress_bounds hp
      have hbounds := hrun j hj
      simp only [target, hdir]
      omega

end Descriptor

/-! ## The query -/

/-- What the query for the range `[addr, stop)` of a tier asks of each queued transfer. -/
def Descriptor.spanMeets (d : Descriptor) (t : Tier) (addr stop : Nat) : Checked Bool := do
  if d.destination.tier ≠ t then
    return false
  let (lo, hi) ← d.destinationSpan
  return lo < stop && addr < hi

theorem Descriptor.spanMeets_exists {d : Descriptor} {span : Nat × Nat} (t : Tier) (addr stop : Nat)
    (hspan : d.destinationSpan = .ok span) : ∃ b, d.spanMeets t addr stop = .ok b ∧
      (b = true ↔ d.destination.tier = t ∧ span.1 < stop ∧ addr < span.2) := by
  by_cases htier : d.destination.tier = t
  · refine ⟨span.1 < stop && addr < span.2, ?_, by simp [htier]⟩
    rw [spanMeets, if_neg (not_not_intro htier), hspan]
    rfl
  · exact ⟨false, if_pos htier, by simp [htier]⟩

/-- The query looks at the spans of the queued transfers that write to its tier. -/
theorem Queue.writesInto_exists {q : Queue} {t : Tier} {addr len : Nat} (hstop : addr + len < wordLimit)
    (hspans : ∀ d ∈ q.pending, ∃ span, d.destinationSpan = .ok span) :
    ∃ seen, q.writesInto t addr len = .ok seen ∧
      (seen = true ↔ ∃ d ∈ q.pending, d.destination.tier = t ∧
        ∃ lo hi, d.destinationSpan = .ok (lo, hi) ∧ lo < addr + len ∧ addr < hi) := by
  have hmeets : ∀ d ∈ q.pending, (∃ b, d.spanMeets t addr (addr + len) = .ok b) ∧
      (d.spanMeets t addr (addr + len) = .ok true ↔ d.destination.tier = t ∧
        ∃ lo hi, d.destinationSpan = .ok (lo, hi) ∧ lo < addr + len ∧ addr < hi) := by
    intro d hd
    obtain ⟨⟨lo, hi⟩, hspan⟩ := hspans d hd
    obtain ⟨b, hb, hiff⟩ := d.spanMeets_exists t addr (addr + len) hspan
    refine ⟨⟨b, hb⟩, ?_⟩
    simp [hb, hiff, hspan]
  obtain ⟨seen, hseen, hiff⟩ := Checked.anyM_exists fun d hd => (hmeets d hd).1
  refine ⟨seen, ?_, hiff.trans (exists_congr fun d => and_congr_right fun hd => (hmeets d hd).2)⟩
  rw [writesInto, add_of_lt hstop, Checked.ok_bind]
  exact hseen

/-- A byte that retiring some transfers changes is written by one of them. -/
theorem Device.Retired.exists_writes {n : Nat} {s s' : Device} (h : Retired n s s') {t : Tier} {a : Nat}
    {addrs : Set Nat} (ha : a ∈ addrs) (hchanged : s'.memory.byteAt t a ≠ s.memory.byteAt t a) :
    ∃ d ∈ s.queue.pending, d.Writes t addrs := by
  by_contra hnone
  have hquiet : Untouched (s.queue.pending.take n) ⟨t, a⟩ := by
    intro d hd p hp htarget
    exact hnone ⟨d, List.mem_of_mem_take hd, p, hp, by rw [htarget], by rw [htarget]; exact ha⟩
  have hkept := congrFun h.image ⟨t, a⟩
  rw [Image.applyAll_of_untouched _ hquiet] at hkept
  exact hchanged hkept

/-- **The query misses no pending write.** It is answered; where a queued transfer writes a byte of the
range, or retiring some of them changes one, the answer is yes. Where only gathering transfers of some
bytes write to the tier, a yes for a range that is not empty means that one of them writes into it. -/
theorem query_sees_pending_writes {s : Device} {t : Tier} {addr len : Nat}
    (hstop : addr + len < wordLimit)
    (hpending : ∀ d ∈ s.queue.pending, d.Addressed ∧ d.loc.addr < wordLimit) :
    ∃ seen, s.queue.writesInto t addr len = .ok seen ∧
      ((∃ d ∈ s.queue.pending, d.Writes t (Set.Ico addr (addr + len))) → seen = true) ∧
      (∀ n ≤ s.queue.pending.length, ∀ s', Device.retire n s = .ok () s' →
        (∃ a ∈ Set.Ico addr (addr + len), s'.memory.byteAt t a ≠ s.memory.byteAt t a) →
        seen = true) ∧
      (0 < len → (∀ d ∈ s.queue.pending, d.destination.tier = t →
          d.direction = .gather ∧ 0 < d.byteCount) →
        seen = true → ∃ d ∈ s.queue.pending, d.Writes t (Set.Ico addr (addr + len))) := by
  have hspans := fun d hd => (hpending d hd).1.destinationSpan_exists (hpending d hd).2
  obtain ⟨seen, hseen, hiff⟩ := Queue.writesInto_exists (q := s.queue) (t := t) hstop fun d hd => by
    obtain ⟨lo, hi, hspan, -⟩ := hspans d hd
    exact ⟨(lo, hi), hspan⟩
  have hsees : (∃ d ∈ s.queue.pending, d.Writes t (Set.Ico addr (addr + len))) → seen = true := by
    rintro ⟨d, hd, p, hp, htier, hlo, hhi⟩
    obtain ⟨lo, hi, hspan, hholds, -⟩ := hspans d hd
    have hbyte := hholds p hp
    rw [d.target_tier] at htier
    exact hiff.mpr ⟨d, hd, htier, lo, hi, hspan, by omega, by omega⟩
  refine ⟨seen, hseen, hsees, ?_, ?_⟩
  · rintro n hn s' hretire ⟨a, ha, hchanged⟩
    have hretired := Device.retire_inv hn (fun d hd => (hpending d hd).1) hretire
    exact hsees (hretired.exists_writes ha hchanged)
  · intro hlen hgather hyes
    obtain ⟨d, hd, htier, lo, hi, hspan, hlo, hhi⟩ := hiff.mp hyes
    obtain ⟨hdir, hbytes⟩ := hgather d hd htier
    obtain ⟨lo', hi', hspan', -, hpacked⟩ := hspans d hd
    rw [hspan'] at hspan
    cases hspan
    obtain ⟨rfl, rfl⟩ := hpacked hdir
    -- the two ranges meet at the higher one of their beginnings
    refine ⟨d, hd, max d.loc.addr addr - d.loc.addr, by omega, ?_, ?_⟩
    · rw [d.target_tier, htier]
    · simp only [Descriptor.target, hdir, Set.mem_Ico]
      omega

/-- A queue that will write four bytes of the scratchpad and, backwards, some of the mid tier. -/
def bothWays : Device :=
  ⟨.empty 64, { Queue.ofDepth 4 with pending := [pairOfRuns, backwardRows] }⟩

/-- The last of the four bytes is seen, and the byte after it is not. -/
theorem query_sees_pending_writes_edge : bothWays.queue.writesInto .scratchpad 3 5 = .ok true ∧
    bothWays.queue.writesInto .scratchpad 4 5 = .ok false := by
  have hlow : backwardRows.InLowerHalf := ⟨⟨18, rfl, by decide⟩, by decide, by decide⟩
  have hpending : ∀ d ∈ bothWays.queue.pending, d.Addressed ∧ d.loc.addr < wordLimit := by
    intro d hd
    rcases List.mem_pair.mp hd with rfl | rfl
    · exact ⟨pairOfRuns_addressed, by decide⟩
    · exact ⟨hlow.fits.toAddressed, by decide⟩
  constructor
  · obtain ⟨seen, hseen, hsees, -⟩ :=
      @query_sees_pending_writes bothWays .scratchpad 3 5 (by decide) hpending
    rw [hseen, hsees ⟨pairOfRuns, List.mem_cons_self, 3, by decide, rfl, by decide, by decide⟩]
  · obtain ⟨seen, hseen, -, -, hexact⟩ :=
      @query_sees_pending_writes bothWays .scratchpad 4 5 (by decide) hpending
    have hgather : ∀ d ∈ bothWays.queue.pending, d.destination.tier = .scratchpad →
        d.direction = .gather ∧ 0 < d.byteCount := by decide
    cases seen with
    | false => exact hseen
    | true =>
      obtain ⟨d, hd, p, hp, htier, haddr⟩ := hexact (by decide) hgather rfl
      rcases List.mem_pair.mp hd with rfl | rfl
      · have hlt : p < 4 := hp
        simp only [Descriptor.target, pairOfRuns, Set.mem_Ico] at haddr
        omega
      · cases htier

end TileStream
