import TileStream.Proofs.Layer.Slots
import TileStream.Proofs.Memory.Image

/-! # Reserving the scratchpad

The parts of a partition lie apart, so a scratchpad that is large enough accepts
all of them as regions, and one that is not refuses a part for its capacity.
Reserving changes nothing but the regions. -/
namespace TileStream

open Unsigned

namespace Bank

/-- A bank has at least `n` addressable bytes. -/
def Holds (b : Bank) (n : Nat) : Prop := ∀ capacity, b.capacity = some capacity → n ≤ capacity

/-- A range that lies apart from every region is registered. -/
theorem allocate_of_apart {b : Bank} {base size : Nat} (name : String) (hholds : b.Holds (base + size))
    (hfree : ∀ r ∈ b.regions, Apart r.base r.size base size) :
    allocate name base size b =
      .ok (.ok ()) { b with regions := b.regions ++ [.fresh name base size] } := by
  refine allocate_of_free name (fun capacity hcapacity => ?_) fun r hr => ?_
  · exact Nat.le_trans (Nat.min_le_left _ _) (hholds capacity hcapacity)
  · have hapart := hfree r hr
    unfold Apart at hapart
    simp only [Region.overlaps, Bool.and_eq_false_iff, decide_eq_false_iff_not]
    unfold Region.stop addSat
    omega

/-- A range that ends past the capacity is refused for it. -/
theorem allocate_of_full {b : Bank} {base size capacity : Nat} (name : String)
    (hcapacity : b.capacity = some capacity) (hfull : capacity < base + size)
    (hlimit : base + size < wordLimit) :
    allocate name base size b =
      .ok (.error (.beyondCapacity b.tier name (base + size) capacity)) b := by
  have hstop : addSat base size = base + size := by
    unfold addSat
    omega
  have hrefused := allocate_of_past name hcapacity (hstop ▸ hfull)
  rw [hstop] at hrefused
  exact hrefused

end Bank

/-! ## The parts of a partition -/

/-- Offset and size of every part. -/
def Scratch.parts (s : Scratch) : List (Nat × Nat) :=
  [(s.slot .input .a, s.input.slotSize), (s.slot .input .b, s.input.slotSize),
    (s.slot .weights .a, s.weights.slotSize), (s.slot .weights .b, s.weights.slotSize),
    (s.slot .output .a, s.output.slotSize), (s.slot .output .b, s.output.slotSize),
    (s.slot .requant .a, s.requant.slotSize), (s.slot .requant .b, s.requant.slotSize),
    (s.workspace.start, s.workspace.len)]

theorem Scratch.regions_parts (s : Scratch) : s.regions.map Prod.snd = s.parts := rfl

namespace Scratch.Partitions

variable {s : Scratch} {g : Geometry}

theorem parts_apart (h : s.Partitions g) :
    s.parts.Pairwise fun p q => Apart p.1 p.2 q.1 q.2 := by
  have hinput := h.input_base
  have houtput := h.output_base
  have hweights := h.weights_base
  have hrequant := h.requant_base
  have hworkspace := h.workspace_start
  simp only [SlotPair.stop] at *
  simp only [parts, List.pairwise_cons, List.mem_cons, List.not_mem_nil, or_false, forall_eq_or_imp,
    forall_eq, Scratch.slot, Scratch.slots, SlotPair.slot, Parity.index, Apart, List.Pairwise.nil,
    and_true, false_imp_iff, implies_true]
  omega

theorem parts_le (h : s.Partitions g) {p : Nat × Nat} (hp : p ∈ s.parts) : p.1 + p.2 ≤ s.total := by
  have hinput := h.input_base
  have houtput := h.output_base
  have hweights := h.weights_base
  have hrequant := h.requant_base
  have hworkspace := h.workspace_start
  have htotal := h.total
  simp only [SlotPair.stop] at *
  simp only [parts, List.mem_cons, List.not_mem_nil, or_false] at hp
  rcases hp with rfl | rfl | rfl | rfl | rfl | rfl | rfl | rfl | rfl <;>
    simp only [Scratch.slot, Scratch.slots, SlotPair.slot, Parity.index] <;> omega

/-- The workspace is the part that begins last. -/
theorem parts_begin_le (h : s.Partitions g) {p : Nat × Nat} (hp : p ∈ s.parts) :
    p.1 ≤ s.workspace.start := by
  have hinput := h.input_base
  have houtput := h.output_base
  have hweights := h.weights_base
  have hrequant := h.requant_base
  have hworkspace := h.workspace_start
  simp only [SlotPair.stop] at *
  simp only [parts, List.mem_cons, List.not_mem_nil, or_false] at hp
  rcases hp with rfl | rfl | rfl | rfl | rfl | rfl | rfl | rfl | rfl <;>
    simp only [Scratch.slot, Scratch.slots, SlotPair.slot, Parity.index] <;> omega

end Scratch.Partitions

namespace Job

variable {j : Job}

/-- What is left to register lies apart from a part that has been registered. -/
theorem free_after {b : Bank} {name : String} {offset size : Nat} {rest : List (String × Nat × Nat)}
    (hapart : ∀ q ∈ rest.map Prod.snd, Apart offset size q.1 q.2)
    (hfree : ∀ r ∈ b.regions, ∀ p ∈ rest,
      Apart r.base r.size (j.params.localBase.toNat + p.2.1) p.2.2) :
    ∀ r ∈ b.regions ++ [.fresh name (j.params.localBase.toNat + offset) size], ∀ p ∈ rest,
      Apart r.base r.size (j.params.localBase.toNat + p.2.1) p.2.2 := by
  intro r hr p hp
  rcases List.mem_append.mp hr with hold | hnew
  · exact hfree r hold p hp
  · rw [List.mem_singleton.mp hnew]
    have hnext := hapart p.2 (List.mem_map_of_mem hp)
    unfold Apart at hnext ⊢
    simp only [Region.fresh] at hnext ⊢
    omega

/-- The region of a part: nothing has touched it. -/
def region (j : Job) (part : String × Nat × Nat) : Region :=
  .fresh part.1 (j.params.localBase.toNat + part.2.1) part.2.2

/-- Parts that lie apart from each other and from what is registered are registered in order. -/
theorem register_of_apart {parts : List (String × Nat × Nat)} {b : Bank}
    (hfit : ∀ p ∈ parts, b.Holds (j.params.localBase.toNat + p.2.1 + p.2.2) ∧
      j.params.localBase.toNat + p.2.1 < 0x10000000000000000)
    (hapart : (parts.map Prod.snd).Pairwise fun p q => Apart p.1 p.2 q.1 q.2)
    (hfree : ∀ r ∈ b.regions, ∀ p ∈ parts,
      Apart r.base r.size (j.params.localBase.toNat + p.2.1) p.2.2) :
    reserve.register j parts b =
      .ok (.ok ()) { b with regions := b.regions ++ parts.map j.region } := by
  induction parts generalizing b with
  | nil => rw [List.map_nil, List.append_nil]; rfl
  | cons part rest ih =>
    obtain ⟨name, offset, size⟩ := part
    rw [List.map_cons, List.pairwise_cons] at hapart
    obtain ⟨hholds, hlimit⟩ := hfit _ List.mem_cons_self
    rw [reserve.register, add_of_lt hlimit, Stateful.bind_of_ok (Stateful.lift_ok _ _),
      Stateful.bind_of_ok
        (Bank.allocate_of_apart name hholds fun r hr => hfree r hr _ List.mem_cons_self)]
    have hrest := ih (b := { b with regions := b.regions ++ [j.region (name, offset, size)] })
      (fun p hp => hfit p (List.mem_cons_of_mem _ hp)) hapart.2
      (free_after hapart.1 fun r hr p hp => hfree r hr p (List.mem_cons_of_mem _ hp))
    rw [List.append_assoc] at hrest
    exact hrest

/-- When the capacity ends before a part does, one of the parts is refused for it. -/
theorem register_refuses {parts : List (String × Nat × Nat)} {b : Bank} {capacity : Nat}
    (hcapacity : b.capacity = some capacity)
    (hlimit : ∀ p ∈ parts, j.params.localBase.toNat + p.2.1 + p.2.2 < wordLimit)
    (hapart : (parts.map Prod.snd).Pairwise fun p q => Apart p.1 p.2 q.1 q.2)
    (hfree : ∀ r ∈ b.regions, ∀ p ∈ parts,
      Apart r.base r.size (j.params.localBase.toNat + p.2.1) p.2.2)
    (hfull : ∃ p ∈ parts, capacity < j.params.localBase.toNat + p.2.1 + p.2.2) :
    ∃ name stop b', reserve.register j parts b =
        .ok (.error (.beyondCapacity b.tier name stop capacity)) b' ∧ capacity < stop := by
  induction parts generalizing b with
  | nil =>
    obtain ⟨p, hp, -⟩ := hfull
    cases hp
  | cons part rest ih =>
    obtain ⟨name, offset, size⟩ := part
    rw [List.map_cons, List.pairwise_cons] at hapart
    have hword : j.params.localBase.toNat + offset + size < wordLimit := hlimit _ List.mem_cons_self
    rw [reserve.register, add_of_lt (show j.params.localBase.toNat + offset < wordLimit by omega),
      Stateful.bind_of_ok (Stateful.lift_ok _ _)]
    rcases Nat.lt_or_ge capacity (j.params.localBase.toNat + offset + size) with hpast | hwithin
    · rw [Stateful.bind_of_ok (Bank.allocate_of_full name hcapacity hpast hword)]
      exact ⟨name, _, b, rfl, hpast⟩
    · have hholds : b.Holds (j.params.localBase.toNat + offset + size) := by
        intro other hother
        rw [hcapacity] at hother
        cases hother
        exact hwithin
      rw [Stateful.bind_of_ok
        (Bank.allocate_of_apart name hholds fun r hr => hfree r hr _ List.mem_cons_self)]
      refine ih (b := { b with regions := _ }) hcapacity
        (fun p hp => hlimit p (List.mem_cons_of_mem _ hp)) hapart.2
        (free_after hapart.1 fun r hr p hp => hfree r hr p (List.mem_cons_of_mem _ hp)) ?_
      obtain ⟨p, hp, hpast⟩ := hfull
      rcases List.mem_cons.mp hp with rfl | hin
      · exact absurd hpast (Nat.not_lt_of_le hwithin)
      · exact ⟨p, hin, hpast⟩

theorem register_keeps {parts : List (String × Nat × Nat)} {b b' : Bank}
    {r : Except RegionError Unit} (h : reserve.register j parts b = .ok r b') :
    b' = { b with regions := b'.regions } := by
  induction parts generalizing b with
  | nil =>
    cases h
    rfl
  | cons part rest ih =>
    obtain ⟨name, offset, size⟩ := part
    obtain ⟨base, -, h⟩ := Stateful.lift_bind_eq_ok.mp h
    obtain ⟨verdict, b₁, hallocate, h⟩ := Stateful.bind_eq_ok.mp h
    obtain ⟨more, hmore⟩ := Bank.allocate_inv hallocate
    cases verdict with
    | error cause =>
      cases h
      rw [hmore]
    | ok => rw [ih h, hmore]

/-- Registered parts follow the regions that were there, and nothing has touched them. -/
theorem register_regions {parts : List (String × Nat × Nat)} {b b' : Bank}
    (h : reserve.register j parts b = .ok (.ok ()) b') :
    b'.regions = b.regions ++ parts.map j.region := by
  induction parts generalizing b with
  | nil =>
    cases h
    exact (List.append_nil _).symm
  | cons part rest ih =>
    obtain ⟨name, offset, size⟩ := part
    obtain ⟨base, hbase, h⟩ := Stateful.lift_bind_eq_ok.mp h
    obtain ⟨-, rfl⟩ := add_eq_ok_iff.mp hbase
    obtain ⟨verdict, b₁, hallocate, h⟩ := Stateful.bind_eq_ok.mp h
    cases verdict with
    | error cause => cases h
    | ok =>
      rw [ih h, Bank.allocate_ok_inv hallocate, List.append_assoc]
      rfl

/-- A reserved scratchpad has the parts of the partition for its regions, and no others. -/
theorem reserve_regions {b b' : Bank} (h : j.reserve b = .ok (.ok ()) b') :
    b'.regions = j.scratch.regions.map j.region := by
  have hregions := register_regions (b := b.clearRegions) h
  exact hregions

/-- Reserving, granted or refused, changes nothing but the regions. -/
theorem reserve_keeps {b b' : Bank} {r : Except RegionError Unit} (h : j.reserve b = .ok r b') :
    b' = { b with regions := b'.regions } := by
  have hkept := register_keeps (b := b.clearRegions) h
  exact hkept

theorem part_of_region {s : Scratch} {p : String × Nat × Nat} (hp : p ∈ s.regions) :
    p.2 ∈ s.parts := by
  rw [← Scratch.regions_parts]
  exact List.mem_map_of_mem hp

/-- **A scratchpad that is large enough is reserved**: its regions are the parts of the partition. -/
theorem reserve_of_holds (h : j.scratch.Partitions j.geometry)
    (hlow : j.params.localBase.toNat + j.scratch.workspace.start < wordLimit) {b : Bank}
    (hholds : b.Holds (j.params.localBase.toNat + j.scratch.total)) :
    j.reserve b = .ok (.ok ()) { b with regions := j.scratch.regions.map j.region } := by
  refine @register_of_apart j j.scratch.regions b.clearRegions ?_ ?_ ?_
  · intro p hp
    have hle := h.parts_le (part_of_region hp)
    have hbegin := h.parts_begin_le (part_of_region hp)
    unfold wordLimit at hlow
    refine ⟨fun capacity hsome => Nat.le_trans ?_ (hholds capacity hsome), ?_⟩ <;> omega
  · exact h.parts_apart
  · exact fun r hr => (by cases hr)

/-- **A scratchpad that is too small refuses a part for its capacity.** -/
theorem reserve_of_full (h : j.scratch.Partitions j.geometry)
    (hlimit : j.params.localBase.toNat + j.scratch.total < wordLimit) {b : Bank} {capacity : Nat}
    (hcapacity : b.capacity = some capacity)
    (hfull : capacity < j.params.localBase.toNat + j.scratch.total) :
    ∃ name stop b', j.reserve b =
        .ok (.error (.beyondCapacity b.tier name stop capacity)) b' ∧ capacity < stop := by
  have hwords : ∀ p ∈ j.scratch.regions,
      j.params.localBase.toNat + p.2.1 + p.2.2 < wordLimit := by
    intro p hp
    have hle := h.parts_le (part_of_region hp)
    omega
  -- the workspace is the part that ends last
  have hlast : ∃ p ∈ j.scratch.regions, capacity < j.params.localBase.toNat + p.2.1 + p.2.2 :=
    ⟨("workspace", j.scratch.workspace.start, j.scratch.workspace.len), by simp [Scratch.regions], by
      rw [Nat.add_assoc, ← h.total]
      exact hfull⟩
  exact register_refuses (b := b.clearRegions) hcapacity hwords h.parts_apart
    (fun r hr => (by cases hr)) hlast

theorem Accepted.reserve_exists (h : j.Accepted) {b : Bank}
    (hholds : b.Holds (j.params.localBase.toNat + j.scratch.total)) :
    ∃ b', j.reserve b = .ok (.ok ()) b' :=
  ⟨_, reserve_of_holds h.scratch (Nat.lt_of_le_of_lt h.low (by decide)) hholds⟩

theorem Fit.reserve_refused (h : j.Fit) {b : Bank}
    (hfull : ¬ b.Holds (j.params.localBase.toNat + j.scratch.total)) :
    ∃ name stop capacity b', j.reserve b =
        .ok (.error (.beyondCapacity b.tier name stop capacity)) b' ∧ capacity < stop := by
  obtain ⟨capacity, hsome, hpast⟩ : ∃ capacity, b.capacity = some capacity ∧
      capacity < j.params.localBase.toNat + j.scratch.total := by
    by_contra hnone
    exact hfull fun capacity hsome => Nat.le_of_not_lt fun hlt => hnone ⟨capacity, hsome, hlt⟩
  obtain ⟨name, stop, b', hreserve⟩ :=
    reserve_of_full h.scratch (Nat.lt_of_le_of_lt h.capacity (by decide)) hsome hpast
  exact ⟨name, stop, capacity, b', hreserve⟩

end Job

end TileStream
