import TileStream.Proofs.Memory.History
import TileStream.Proofs.Memory.Regions

/-! # The registry of a tier

A range is registered if it ends within the capacity and no registered region
overlaps it. That test is not symmetric when a range is empty, and it holds an end
past the address space at the last address, yet what it refuses is enough:
`Bank.Orderly` says that of two registered ranges one ends before the other
begins, and every operation keeps it, whatever it was given. The regions of an
orderly registry share no address, so the first region that a transfer overlaps is
the one that it lies in. -/
namespace TileStream

open Unsigned

namespace Region

/-- Of two ranges one ends before the other begins, each end held at the last address. -/
def Clear (p q : Nat × Nat) : Prop := addSat p.1 p.2 ≤ q.1 ∨ addSat q.1 q.2 ≤ p.1

variable {r q : Region} {addr len : Nat}

theorem Clear.symm {p q : Nat × Nat} (h : Clear p q) : Clear q p := Or.symm h

/-- A range that a region does not overlap is clear of it, however empty. -/
theorem clear_of_not_overlaps {base size : Nat} (h : r.overlaps base size = false) :
    Clear r.range (base, size) := by
  simp only [overlaps, Bool.and_eq_false_iff, decide_eq_false_iff_not, Nat.not_lt] at h
  exact h

theorem Clear.not_both_contain (h : Clear r.range q.range) (hr : r.contains addr) :
    q.contains addr = false := by
  simp only [contains, Bool.and_eq_true, decide_eq_true_eq, Bool.and_eq_false_iff,
    decide_eq_false_iff_not] at hr ⊢
  have hends : r.stop ≤ q.base ∨ q.stop ≤ r.base := h
  omega

/-- A range of some bytes lies inside a region if all its addresses do. -/
theorem bounds_of_contains (hlen : 0 < len) (h : ∀ p < len, r.contains (addr + p)) :
    r.base ≤ addr ∧ addr + len ≤ r.stop := by
  have hfirst := h 0 hlen
  have hlast := h (len - 1) (Nat.sub_lt hlen Nat.one_pos)
  simp only [contains, Bool.and_eq_true, decide_eq_true_eq] at hfirst hlast
  omega

/-- The region that a range of some bytes lies in overlaps it. -/
theorem overlaps_of_contains (hlen : 0 < len) (h : ∀ p < len, r.contains (addr + p)) :
    r.overlaps addr len = true := by
  obtain ⟨hbase, hend⟩ := bounds_of_contains hlen h
  have hlimit : r.stop ≤ wordLimit - 1 := Nat.min_le_right _ _
  simp only [overlaps, Bool.and_eq_true, decide_eq_true_eq]
  unfold addSat
  omega

/-- A region clear of the one that a range lies in does not overlap the range. -/
theorem Clear.not_overlaps (h : Clear q.range r.range) (hlen : 0 < len)
    (hin : ∀ p < len, r.contains (addr + p)) : q.overlaps addr len = false := by
  obtain ⟨hbase, hend⟩ := bounds_of_contains hlen hin
  have hends : q.stop ≤ r.base ∨ r.stop ≤ q.base := h
  have hsat : addSat addr len ≤ addr + len := Nat.min_le_left _ _
  simp only [overlaps, Bool.and_eq_false_iff, decide_eq_false_iff_not]
  omega

/-- A transfer inside a region that is clear of all others touches that region and no other. -/
theorem touchFirst_of_contains (f : Region → Region) {rs : List Region} {i : Nat}
    (hclear : (rs.map range).Pairwise Clear) (hget : rs[i]? = some r) (hlen : 0 < len)
    (hin : ∀ p < len, r.contains (addr + p)) : touchFirst f addr len rs = rs.set i (f r) := by
  induction rs generalizing i with
  | nil => cases hget
  | cons first rest ih =>
    obtain ⟨hfirst, hrest⟩ := List.pairwise_cons.mp hclear
    cases i with
    | zero =>
      obtain rfl : first = r := Option.some.inj hget
      rw [touchFirst, if_pos (overlaps_of_contains hlen hin), List.set_cons_zero]
    | succ i =>
      have hmem : r.range ∈ rest.map range := List.mem_map_of_mem (List.mem_of_getElem? hget)
      have hpasses := (hfirst _ hmem).not_overlaps hlen hin
      rw [touchFirst, if_neg (by rw [hpasses]; exact Bool.false_ne_true), ih hrest hget,
        List.set_cons_succ]

end Region

namespace Bank

open Region (Clear)

/-- The registered ranges are clear of each other and end within the capacity. -/
structure Orderly (b : Bank) : Prop where
  clear : (b.regions.map Region.range).Pairwise Clear
  within : ∀ p ∈ b.regions.map Region.range, ∀ capacity, b.capacity = some capacity →
    addSat p.1 p.2 ≤ capacity

variable {b b' : Bank} {name : String} {base size addr len : Nat}

/-- A range that is registered ends within the capacity, and no region overlapped it. -/
theorem free_of_allocate (h : Bank.allocate name base size b = .ok (.ok ()) b') :
    (∀ capacity, b.capacity = some capacity → addSat base size ≤ capacity) ∧
      ∀ r ∈ b.regions, r.overlaps base size = false := by
  obtain ⟨cause, hrefused⟩ | ⟨hroom, hfree, -⟩ := allocate_cases name base size b
  · cases h.symm.trans hrefused
  · exact ⟨hroom, hfree⟩

theorem orderly_empty (tier : Tier) (capacity : Option Nat) : (empty tier capacity).Orderly :=
  ⟨List.Pairwise.nil, nofun⟩

/-- Whatever keeps the ranges of the regions keeps their order. -/
theorem Orderly.of_ranges (h : b.Orderly) (hcapacity : b'.capacity = b.capacity)
    (hranges : b'.regions.map Region.range = b.regions.map Region.range) : b'.Orderly := by
  constructor
  · rw [hranges]
    exact h.clear
  · rw [hranges, hcapacity]
    exact h.within

/-- Registering a range keeps the order, because the last region is clear of all before it. -/
theorem Orderly.allocate (h : b.Orderly) (halloc : Bank.allocate name base size b = .ok (.ok ()) b') :
    b'.Orderly := by
  obtain ⟨hcapacity, hfree⟩ := free_of_allocate halloc
  rw [allocate_ok_inv halloc]
  constructor
  · rw [List.map_append, List.pairwise_append]
    refine ⟨h.clear, List.pairwise_singleton _ _, ?_⟩
    intro p hp q hq
    obtain ⟨r, hr, rfl⟩ := List.mem_map.mp hp
    obtain rfl : q = (base, size) := List.mem_singleton.mp hq
    exact Region.clear_of_not_overlaps (hfree r hr)
  · intro p hp capacity hbound
    rw [List.map_append, List.mem_append] at hp
    rcases hp with hold | hnew
    · exact h.within p hold capacity hbound
    · obtain rfl : p = (base, size) := List.mem_singleton.mp hnew
      exact hcapacity capacity hbound

/-! ## One operation -/

/-- What an operation can do to the registry. -/
inductive RegistryStep (b b' : Bank) : Prop
  /-- It forgets every region. -/
  | clear (h : b'.regions = [])
  /-- It registers a range. -/
  | register (name : String) (base size : Nat) (h : Bank.allocate name base size b = .ok (.ok ()) b')
  /-- It counts at most, on regions that stay where they are. -/
  | count (h : b'.regions.map Region.range = b.regions.map Region.range)

namespace Op

theorem final_look {α : Type} (f : Bank → Checked α) (b : Bank) : (look f).final b = b := by
  unfold Stateful.final look
  cases f b <;> rfl

/-- A write leaves the registry alone, also when it stops at the last address. -/
theorem final_write (addr : Nat) (data : List UInt8) (b : Bank) :
    ((Bank.write addr data).final b).capacity = b.capacity ∧
      ((Bank.write addr data).final b).regions = b.regions := by
  unfold Stateful.final Bank.write
  cases reachesEnd addr data.length <;> exact ⟨rfl, rfl⟩

theorem final_countRead (addr len : Nat) (b : Bank) :
    ((Bank.countRead addr len).final b).capacity = b.capacity ∧
      ((Bank.countRead addr len).final b).regions.map Region.range = b.regions.map Region.range := by
  unfold Stateful.final Bank.countRead
  cases add b.bytesRead len with
  | error e => exact ⟨rfl, rfl⟩
  | ok total => exact ⟨rfl, Region.map_range_touchFirst .read addr len b.regions⟩

/-- No operation changes the capacity, and each takes one step of the registry. -/
theorem final_step (op : Op) (b : Bank) :
    (op.run.final b).capacity = b.capacity ∧ RegistryStep b (op.run.final b) := by
  have hwrite {addr : Nat} {data : List UInt8} (hrun : op.run = Bank.write addr data) :
      (op.run.final b).capacity = b.capacity ∧ RegistryStep b (op.run.final b) := by
    obtain ⟨hcapacity, hregions⟩ := final_write addr data b
    rw [hrun]
    exact ⟨hcapacity, .count (congrArg _ hregions)⟩
  have hlook {α : Type} {f : Bank → Checked α} (hrun : op.run = look f) :
      (op.run.final b).capacity = b.capacity ∧ RegistryStep b (op.run.final b) := by
    rw [hrun, final_look]
    exact ⟨rfl, .count rfl⟩
  cases op with
  | write => exact hwrite rfl
  | writeByte => exact hwrite rfl
  | writeInt32 => exact hwrite rfl
  | writeInt32s => exact hwrite rfl
  | read => exact hlook rfl
  | readInt32 => exact hlook rfl
  | readInt32s => exact hlook rfl
  | allocate name base size =>
    have hfinal : ∀ {r b'}, Bank.allocate name base size b = .ok r b' →
        (Op.allocate name base size).run.final b = b' := fun halloc =>
      Stateful.final_of_ok (Stateful.discard_of_ok halloc)
    obtain ⟨cause, hrefused⟩ | ⟨-, -, halloc⟩ := allocate_cases name base size b
    · rw [hfinal hrefused]
      exact ⟨rfl, .count rfl⟩
    · rw [hfinal halloc]
      exact ⟨rfl, .register name base size halloc⟩
  | clearRegions => exact ⟨rfl, .clear rfl⟩
  | countRead addr len =>
    obtain ⟨hcapacity, hranges⟩ := final_countRead addr len b
    exact ⟨hcapacity, .count hranges⟩
  | countWrite addr len => exact ⟨rfl, .count (Region.map_range_touchFirst .write addr len b.regions)⟩

end Op

theorem Orderly.step (h : b.Orderly) (hcapacity : b'.capacity = b.capacity)
    (hstep : RegistryStep b b') : b'.Orderly := by
  cases hstep with
  | clear hnone =>
    refine ⟨?_, ?_⟩ <;> rw [hnone]
    · exact List.Pairwise.nil
    · exact nofun
  | register name base size halloc => exact h.allocate halloc
  | count hranges => exact h.of_ranges hcapacity hranges

/-! ## Every history -/

/-- A bank after operations one after the other. One that stops leaves what it did before. -/
def after (b : Bank) (ops : List Op) : Bank := ops.foldl (fun b op => op.run.final b) b

/-- By induction on the operations: each keeps the capacity and the order. -/
theorem Orderly.after (h : b.Orderly) (ops : List Op) :
    (b.after ops).capacity = b.capacity ∧ (b.after ops).Orderly := by
  induction ops generalizing b with
  | nil => exact ⟨rfl, h⟩
  | cons op ops ih =>
    obtain ⟨hcapacity, hstep⟩ := op.final_step b
    obtain ⟨hrest, horderly⟩ := ih (h.step hcapacity hstep)
    exact ⟨hrest.trans hcapacity, horderly⟩

/-- The registry of a bank with a capacity tells addresses and transfers apart. -/
structure Registry (capacity : Option Nat) (b : Bank) : Prop where
  /-- No address is contained in two regions. -/
  disjoint : b.regions.Pairwise fun r q => ∀ addr, ¬ (r.contains addr ∧ q.contains addr)
  /-- Every region ends at or below the capacity. -/
  within : ∀ r ∈ b.regions, ∀ bytes, capacity = some bytes → r.stop ≤ bytes
  /-- A range that is refused leaves everything as it was. -/
  refused : ∀ name base size e b', Bank.allocate name base size b = .ok (.error e) b' → b' = b
  /-- A write inside a region counts one more write of that region, and changes nothing else. -/
  countWrite : ∀ i r addr len, b.regions[i]? = some r → 0 < len →
    (∀ p < len, r.contains (addr + p)) →
    (Op.countWrite addr len).run b =
      .ok () { b with regions := b.regions.set i { r with writes := r.writes + 1 } }
  /-- A read inside a region counts one more read of that region and adds its bytes to the total of the
  bank, and changes nothing else. A total that no word holds stops it, and nothing is counted. -/
  countRead : ∀ i r addr len, b.regions[i]? = some r → 0 < len →
    (∀ p < len, r.contains (addr + p)) →
    (Op.countRead addr len).run b =
      if b.bytesRead + len < wordLimit then
        .ok () { b with
          bytesRead := b.bytesRead + len
          regions := b.regions.set i { r with reads := r.reads + 1 } }
      else .error .addOverflow b

theorem Orderly.registry (h : b.Orderly) : Registry b.capacity b where
  disjoint := by
    refine (List.pairwise_map.mp h.clear).imp ?_
    intro r q hclear addr hboth
    rw [hclear.not_both_contain hboth.1] at hboth
    exact Bool.false_ne_true hboth.2
  within r hr bytes hcapacity := h.within r.range (List.mem_map_of_mem hr) bytes hcapacity
  refused name base size e b' hrefused := by
    obtain ⟨cause, hsame⟩ | ⟨-, -, hregistered⟩ := allocate_cases name base size b
    · cases hrefused.symm.trans hsame
      rfl
    · cases hrefused.symm.trans hregistered
  countWrite i r addr len hget hlen hin := by
    show EStateM.Result.ok () (b.countWrite addr len) = _
    rw [Bank.countWrite, Region.touchFirst_of_contains _ h.clear hget hlen hin]
    rfl
  countRead i r addr len hget hlen hin := by
    show Bank.countRead addr len b = _
    rw [Bank.countRead, Region.touchFirst_of_contains _ h.clear hget hlen hin]
    by_cases hroom : b.bytesRead + len < wordLimit
    · rw [if_pos hroom, add_of_lt hroom]
      rfl
    · rw [if_neg hroom, add, if_neg hroom]

/-- **The registry of a tier holds its invariant.** Whatever operations a tier of any capacity has gone
through, none of them excluded, no address is contained in two of its regions and every region ends
within the capacity; a range that is refused leaves the tier as it was; and a transfer of some bytes
inside a region is counted on that region and on no other, unless it is a read that would push the
total of bytes read past the last word. -/
theorem registry_holds (tier : Tier) (capacity : Option Nat) (ops : List Op) :
    Registry capacity ((empty tier capacity).after ops) := by
  obtain ⟨hcapacity, horderly⟩ := (orderly_empty tier capacity).after ops
  have hregistry := horderly.registry
  rw [hcapacity] at hregistry
  exact hregistry

/-- An empty range at the end of a region, one that is refused inside it, and one past the last address. -/
def edges : List Op :=
  [.allocate "a" 0 16, .allocate "edge" 16 0, .allocate "inside" 8 0, .countRead 4 8,
    .allocate "top" 18446744073709551610 100]

theorem registry_holds_edges : Registry none ((empty .mid none).after edges) ∧
    ((empty .mid none).after edges).regions = [⟨"a", 0, 16, 1, 0⟩, ⟨"edge", 16, 0, 0, 0⟩,
      ⟨"top", 18446744073709551610, 100, 0, 0⟩] := by
  refine ⟨registry_holds .mid none edges, ?_⟩
  rfl

/-- Two reads of the same half of the address space lie inside a region, and only the first is counted:
the second would push the total of bytes read past the last word. -/
theorem half_read_counted_once :
    ∃ b r, (empty .slow none).after [.allocate "half" 0 0x8000000000000000,
        .countRead 0 0x8000000000000000] = b ∧ b.regions = [r] ∧ r.reads = 1 ∧
      (∀ p < 0x8000000000000000, r.contains (0 + p)) ∧
      (Op.countRead 0 0x8000000000000000).run b = .error .addOverflow b := by
  refine ⟨_, ⟨"half", 0, 0x8000000000000000, 1, 0⟩, rfl, rfl, rfl, ?_, ?_⟩
  · intro p hp
    rw [Region.contains, Bool.and_eq_true, decide_eq_true_eq, decide_eq_true_eq]
    exact ⟨Nat.zero_le _, by rw [Nat.zero_add]; exact hp⟩
  · exact Op.run_stops (by decide) (by decide)

end Bank

end TileStream
