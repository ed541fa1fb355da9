import TileStream.LittleEndian
import TileStream.Memory.Pages
import TileStream.Memory.Region
/-!
# The memory of one tier

A bank is the paged storage of a tier with its optional capacity, its registered regions and its byte
counters. Capacity binds regions only: accesses are not bounded. An access that would pass the last
address stops after the bytes that exist.
-/

namespace TileStream

open Unsigned

/-- The memory of one tier. -/
structure Bank where
  tier : Tier
  /-- The addressable bytes, `none` when there is no bound. -/
  capacity : Option Nat
  pages : Pages
  /-- The regions in the order of their registration. -/
  regions : List Region
  /-- Bytes written. Each was copied when it was counted, so no run brings the count near the last word. -/
  bytesWritten : Nat
  /-- Bytes read by transfers. -/
  bytesRead : Nat
  deriving Inhabited

/-- A buffer of more bytes than this cannot exist. -/
def maxBuffer : Nat := 0x7fffffffffffffff

/-- Make sure that a buffer of `bytes` bytes can exist. -/
def checkBuffer (bytes : Nat) : Checked Unit :=
  if maxBuffer < bytes then .error .bufferTooLarge else .ok ()

/-- An access of `len` bytes at `addr` reaches the last address, past which no cursor can move. -/
def reachesEnd (addr len : Nat) : Bool := len != 0 && wordLimit ≤ addr + len

namespace Bank

/-- An empty tier. -/
def empty (tier : Tier) (capacity : Option Nat) : Bank :=
  { tier, capacity, pages := .empty, regions := [], bytesWritten := 0, bytesRead := 0 }

/-- The byte at an address. -/
def byteAt (b : Bank) (addr : Nat) : UInt8 := b.pages.byteAt addr

/-- Read into an existing buffer. -/
def readInto (b : Bank) (addr len : Nat) : Checked (Array UInt8) :=
  if reachesEnd addr len then .error .addOverflow else .ok (b.pages.read addr len)

/-- Read into a new buffer. -/
def read (b : Bank) (addr len : Nat) : Checked (Array UInt8) := do
  checkBuffer len
  b.readInto addr len

/-- Read a signed little-endian word. -/
def readInt32 (b : Bank) (addr : Nat) : Checked Int32 := do
  let bytes ← b.readInto addr 4
  return ((LittleEndian.words bytes.toList).headD 0).toInt32

/-- Read `count` signed little-endian words. -/
def readInt32s (b : Bank) (addr count : Nat) : Checked (List Int32) := do
  let bytes ← b.read addr (← mul count 4)
  return (LittleEndian.words bytes.toList).map UInt32.toInt32

/-- Write bytes. Those that fit below the end of the address space are written before a fault. -/
def write (addr : Nat) (data : List UInt8) : Stateful Bank Unit := fun b =>
  let b := { b with pages := b.pages.write addr (data.take (wordLimit - addr)) }
  if reachesEnd addr data.length then
    .error .addOverflow b
  else
    .ok () { b with bytesWritten := b.bytesWritten + data.length }

/-- Write one byte. -/
def writeByte (addr : Nat) (value : UInt8) : Stateful Bank Unit := write addr [value]

/-- Write a signed word, little-endian. -/
def writeInt32 (addr : Nat) (value : Int32) : Stateful Bank Unit :=
  write addr (LittleEndian.bytes value.toUInt32)

/-- Write signed words, little-endian. -/
def writeInt32s (addr : Nat) (values : List Int32) : Stateful Bank Unit :=
  write addr (values.flatMap fun z => LittleEndian.bytes z.toUInt32)

/-- Register a region: it must end within the capacity and overlap none that is registered. -/
def allocate (name : String) (base size : Nat) : Stateful Bank (Except RegionError Unit) := fun b =>
  let stop := addSat base size
  match b.capacity.filter (· < stop), b.regions.find? (·.overlaps base size) with
  | some capacity, _ => .ok (.error (.beyondCapacity b.tier name stop capacity)) b
  | none, some existing => .ok (.error (.overlap b.tier name base existing.name)) b
  | none, none => .ok (.ok ()) { b with regions := b.regions ++ [.fresh name base size] }

/-- The first region of a name. -/
def region? (b : Bank) (name : String) : Option Region := b.regions.find? (·.name == name)

/-- Forget every region. The bytes stay. -/
def clearRegions (b : Bank) : Bank := { b with regions := [] }

/-- Account for a transfer that reads `len` bytes, beginning at `addr`. -/
def countRead (addr len : Nat) : Stateful Bank Unit := fun b =>
  match add b.bytesRead len with
  | .error f => .error f b
  | .ok bytesRead =>
    .ok () { b with bytesRead, regions := Region.touchFirst Region.countRead addr len b.regions }

/-- Account for a transfer that writes `len` bytes, beginning at `addr`. -/
def countWrite (b : Bank) (addr len : Nat) : Bank :=
  { b with regions := Region.touchFirst Region.countWrite addr len b.regions }

/-- A region is refused, or it is registered after the others; nothing else changes. -/
theorem allocate_cases (name : String) (base size : Nat) (b : Bank) :
    (∃ cause, allocate name base size b = .ok (.error cause) b) ∨
      (∀ capacity, b.capacity = some capacity → addSat base size ≤ capacity) ∧
      (∀ r ∈ b.regions, r.overlaps base size = false) ∧
      allocate name base size b =
        .ok (.ok ()) { b with regions := b.regions ++ [.fresh name base size] } := by
  simp only [allocate]
  cases hpast : b.capacity.filter (· < addSat base size) with
  | some capacity => exact .inl ⟨_, rfl⟩
  | none =>
    cases hfind : b.regions.find? (·.overlaps base size) with
    | some existing => exact .inl ⟨_, rfl⟩
    | none =>
      refine .inr ⟨fun capacity hcapacity => ?_, by simpa using hfind, rfl⟩
      simpa [hcapacity] using hpast

/-- A region that ends within the capacity and overlaps no other is registered. -/
theorem allocate_of_free {b : Bank} {base size : Nat} (name : String)
    (hroom : ∀ capacity, b.capacity = some capacity → addSat base size ≤ capacity)
    (hfree : ∀ r ∈ b.regions, r.overlaps base size = false) :
    allocate name base size b =
      .ok (.ok ()) { b with regions := b.regions ++ [.fresh name base size] } := by
  have hpast : b.capacity.filter (· < addSat base size) = none := by simpa using hroom
  have hfind : b.regions.find? (·.overlaps base size) = none := by simpa using hfree
  simp only [allocate, hpast, hfind]

/-- A region that ends past the capacity is refused for it. -/
theorem allocate_of_past {b : Bank} {base size capacity : Nat} (name : String)
    (hcapacity : b.capacity = some capacity) (hpast : capacity < addSat base size) :
    allocate name base size b =
      .ok (.error (.beyondCapacity b.tier name (addSat base size) capacity)) b := by
  simp [allocate, Option.filter, hcapacity, hpast]

theorem allocate_ok_inv {b b' : Bank} {name : String} {base size : Nat}
    (h : allocate name base size b = .ok (.ok ()) b') :
    b' = { b with regions := b.regions ++ [.fresh name base size] } := by
  obtain ⟨cause, hrefused⟩ | ⟨-, -, hregistered⟩ := allocate_cases name base size b
  · cases h.symm.trans hrefused
  · cases h.symm.trans hregistered
    rfl

/-- There is always a verdict. -/
theorem allocate_exists (name : String) (base size : Nat) (b : Bank) :
    ∃ r b', allocate name base size b = .ok r b' := by
  obtain ⟨cause, hrefused⟩ | ⟨-, -, hregistered⟩ := allocate_cases name base size b
  · exact ⟨_, _, hrefused⟩
  · exact ⟨_, _, hregistered⟩

/-- Registering a region, granted or refused, adds regions at most. -/
theorem allocate_inv {b b' : Bank} {name : String} {base size : Nat} {r : Except RegionError Unit}
    (h : allocate name base size b = .ok r b') :
    ∃ more, b' = { b with regions := b.regions ++ more } := by
  obtain ⟨cause, hrefused⟩ | ⟨-, -, hregistered⟩ := allocate_cases name base size b
  · cases h.symm.trans hrefused
    exact ⟨[], by rw [List.append_nil]⟩
  · cases h.symm.trans hregistered
    exact ⟨_, rfl⟩

theorem not_reachesEnd_iff {addr len : Nat} :
    reachesEnd addr len = false ↔ len = 0 ∨ addr + len < wordLimit := by
  simp [reachesEnd, Decidable.or_iff_not_imp_left]

theorem readInto_eq_ok_iff {b : Bank} {addr len : Nat} {bytes : Array UInt8} :
    b.readInto addr len = .ok bytes ↔
      (len = 0 ∨ addr + len < wordLimit) ∧ b.pages.read addr len = bytes := by
  rw [readInto, ← not_reachesEnd_iff]
  cases reachesEnd addr len <;> simp

theorem write_eq_ok {b : Bank} {addr : Nat} {data : List UInt8}
    (h : data = [] ∨ addr + data.length < wordLimit) :
    write addr data b = .ok () { b with
      pages := b.pages.write addr data
      bytesWritten := b.bytesWritten + data.length } := by
  have hfits : reachesEnd addr data.length = false :=
    not_reachesEnd_iff.mpr (h.imp_left fun hnil => by rw [hnil]; rfl)
  have htake : data.take (wordLimit - addr) = data := by
    rcases h with rfl | h
    · exact List.take_nil
    · exact List.take_of_length_le (by omega)
  simp [write, hfits, htake]

theorem byteAt_of_write {b b' : Bank} {addr : Nat} {data : List UInt8}
    (h : data = [] ∨ addr + data.length < wordLimit) (hw : write addr data b = .ok () b')
    (other : Nat) :
    b'.byteAt other =
      if addr ≤ other then (data[other - addr]?).getD (b.byteAt other) else b.byteAt other := by
  rw [write_eq_ok h] at hw
  cases hw
  exact b.pages.byteAt_write addr other data

/-- The number of pages written. -/
def pageCount (b : Bank) : Nat := b.pages.count

/-- A one-line summary of the state. -/
def summary (b : Bank) : String :=
  let capacity := match b.capacity with
    | none => "None"
    | some bytes => s!"Some({bytes})"
  s!"TierMemory \x7b tier: {b.tier.title}, capacity: {capacity}, " ++
    s!"allocated_pages: {b.pageCount}, regions: {b.regions.length}, " ++
    s!"total_bytes_written: {b.bytesWritten} \x7d"

end Bank

end TileStream
