import Mathlib.Algebra.BigOperators.Ring.List
import Mathlib.Algebra.Ring.Nat
import Mathlib.Data.List.Nodup
import Mathlib.Data.List.ReduceOption
import TileStream.Proofs.Transfer.AnyOrder

/-! # The shares of any transfer

`split` cuts the outer blocks of a transfer into consecutive pieces. The first
run of a piece is a run of the whole, so the runs of the piece are those of the
whole from there on, for strides of every sign. The pieces of all units together
have every run once, and may be moved in any order if no byte is the target of
two runs. -/
namespace TileStream

open Unsigned Checked

namespace Shape

/-- Where run `j` lies, seen from the base. -/
def offset (s : Shape) (j : Nat) : Int :=
  (j % s.middle.steps : Nat) * s.middle.stride + (j / s.middle.steps : Nat) * s.outer.stride

theorem runAt_eq (s : Shape) (base j : Nat) : s.runAt base j = unsigned (signed base + s.offset j) :=
  rfl

theorem runAddress_eq (s : Shape) (base j : Nat) : s.runAddress base j = base + s.offset j :=
  Int.add_assoc _ _ _

theorem offset_middle (s : Shape) {m : Nat} (hm : m < s.middle.steps) :
    s.offset m = m * s.middle.stride := by
  rw [offset, Nat.mod_eq_of_lt hm, Nat.div_eq_of_lt hm]
  simp

/-- Skipping whole blocks moves every run by the same distance. -/
theorem offset_block (s : Shape) (o j : Nat) :
    s.offset (o * s.middle.steps + j) = o * s.outer.stride + s.offset j := by
  have hdiv : (o * s.middle.steps + j) / s.middle.steps = o + j / s.middle.steps := by
    rw [Nat.mul_comm, Nat.mul_add_div s.middle.steps_pos]
  rw [offset, offset, Nat.mul_add_mod', hdiv, Int.natCast_add, Int.add_mul]
  exact Int.add_left_comm _ _ _

theorem offset_zero (s : Shape) : s.offset 0 = 0 := by
  rw [offset_middle s s.middle.steps_pos]
  exact Int.zero_mul _

theorem offset_outer (s : Shape) (o : Nat) : s.offset (o * s.middle.steps) = o * s.outer.stride := by
  have h := s.offset_block o 0
  rwa [Nat.add_zero, offset_zero, Int.add_zero] at h

theorem run_lt_runs {s : Shape} {m o : Nat} (hm : m < s.middle.steps) (ho : o < s.outer.steps) :
    o * s.middle.steps + m < s.runs := by
  have hblock : (o + 1) * s.middle.steps ≤ s.outer.steps * s.middle.steps :=
    Nat.mul_le_mul_right _ ho
  rw [Nat.add_mul, Nat.one_mul] at hblock
  rw [runs, Nat.mul_comm s.middle.steps]
  exact Nat.lt_of_lt_of_le (Nat.add_lt_add_left hm _) hblock

theorem block_lt_runs {s : Shape} {o : Nat} (ho : o < s.outer.steps) :
    o * s.middle.steps < s.runs :=
  run_lt_runs s.middle.steps_pos ho

theorem byteCount_eq_blocks (s : Shape) : s.byteCount = s.outer.steps * s.blockBytes := by
  rw [byteCount, runs, blockBytes, ← Nat.mul_assoc, Nat.mul_comm]

theorem middle_le_runs (s : Shape) : s.middle.steps ≤ s.runs :=
  Nat.le_mul_of_pos_right _ s.outer.steps_pos

/-- The distance between two runs of a shape is always a displacement. -/
def Near (s : Shape) : Prop :=
  ∀ i < s.runs, ∀ j < s.runs, Signed.InRange (s.offset j - s.offset i)

variable {fault : Fault → Prop} {s : Shape} {base : Nat}

/-- The address of a run is computed, unless it leaves the signed words. -/
theorem Near.address_ends (h : s.Near) {j : Nat} (hj : j < s.runs)
    (hin : Signed.InRange (signed base + s.offset j) ∨ fault .addOverflow) :
    Ends fault (· = s.runAt base j) (s.address base (j % s.middle.steps) (j / s.middle.steps)) := by
  have hm := Nat.mod_lt j s.middle.steps_pos
  have ho : j / s.middle.steps < s.outer.steps := Nat.div_lt_of_lt_mul hj
  have hmiddle := h 0 s.runs_pos _ (Nat.lt_of_lt_of_le hm s.middle_le_runs)
  have houter := h 0 s.runs_pos _ (block_lt_runs ho)
  have hboth := h 0 s.runs_pos _ hj
  rw [offset_zero, Int.sub_zero] at hmiddle houter hboth
  rw [offset_middle s hm] at hmiddle
  rw [offset_outer] at houter
  rw [address, Signed.mul_eq_ok_iff.mpr ⟨hmiddle, rfl⟩, Checked.ok_bind,
    Signed.mul_eq_ok_iff.mpr ⟨houter, rfl⟩, Checked.ok_bind,
    Signed.add_eq_ok_iff.mpr ⟨hboth, rfl⟩, Checked.ok_bind]
  exact (Signed.add_ends hin).bind fun z hz => congrArg unsigned hz.1

/-- Every run begins below `2 ^ 63`, over the integers. -/
def InLowerHalf (s : Shape) (base : Nat) : Prop :=
  ∀ j < s.runs, 0 ≤ s.runAddress base j ∧ s.runAddress base j < 0x8000000000000000

theorem InLowerHalf.base_lt (h : s.InLowerHalf base) : base < 0x8000000000000000 := by
  have hfirst := (h 0 s.runs_pos).2
  rw [runAddress_eq, offset_zero] at hfirst
  omega

theorem InLowerHalf.near (h : s.InLowerHalf base) : s.Near := by
  intro i hi j hj
  have hi := h i hi
  have hj := h j hj
  rw [runAddress_eq] at hi hj
  exact ⟨by omega, by omega⟩

theorem InLowerHalf.signed_inRange (h : s.InLowerHalf base) {j : Nat} (hj : j < s.runs) :
    Signed.InRange (signed base + s.offset j) := by
  have hj := h j hj
  rw [runAddress_eq] at hj
  rw [signed_of_lt h.base_lt]
  exact ⟨by omega, hj.2⟩

theorem InLowerHalf.runAt_eq (h : s.InLowerHalf base) {j : Nat} (hj : j < s.runs) :
    s.runAt base j = (s.runAddress base j).toNat := by
  have hj := h j hj
  rw [runAddress_eq] at hj ⊢
  rw [Shape.runAt_eq, signed_of_lt h.base_lt, unsigned, if_pos hj.1]

/-- The address of every run is computed, and it is the one over the integers. -/
theorem InLowerHalf.address (h : s.InLowerHalf base) {j : Nat} (hj : j < s.runs) :
    s.address base (j % s.middle.steps) (j / s.middle.steps) = .ok (s.runAddress base j).toNat := by
  have hends : Ends (fun _ => False) (· = s.runAt base j)
      (s.address base (j % s.middle.steps) (j / s.middle.steps)) :=
    h.near.address_ends hj (.inl (h.signed_inRange hj))
  obtain ⟨a, ha, rfl⟩ := hends.ok_of_never fun _ => id
  rw [ha, h.runAt_eq hj]

end Shape

namespace Descriptor

/-- The start of every run on the strided side, in the order in which the runs are moved. -/
def runStarts (d : Descriptor) : Checked (List Nat) :=
  (RunCursor.start d.ext.addr d.shape).take d.shape.runs

/-- The start of every run on both sides, in order. -/
def runPairs (d : Descriptor) : Checked (List (Nat × Nat)) := do
  return (← d.runStarts).mapIdx fun j start => (start, d.loc.addr + j * d.shape.runBytes)

/-- The start of run `j` on both sides. -/
def runPair (d : Descriptor) (j : Nat) : Nat × Nat :=
  (d.shape.runAt d.ext.addr j, d.loc.addr + j * d.shape.runBytes)

/-- Every address of a transfer is computed, or the strided side leaves the signed words and the
computation stops with a fault that is allowed. -/
structure Reaches (fault : Fault → Prop) (d : Descriptor) : Prop where
  near : d.shape.Near
  strided : ∀ j < d.shape.runs, Signed.InRange (signed d.ext.addr + d.shape.offset j) ∨
    fault .addOverflow
  packed : ∀ j < d.shape.runs, d.loc.addr + j * d.shape.runBytes < 0x8000000000000000
  total : d.byteCount < 0x8000000000000000

variable {fault : Fault → Prop} {d : Descriptor}

theorem Reaches.runStarts_ends (h : d.Reaches fault) :
    Ends fault (· = (List.range d.shape.runs).map (d.shape.runAt d.ext.addr)) d.runStarts := by
  rw [runStarts, RunCursor.start_eq, List.range_eq_range']
  exact RunCursor.take_map_ends (fun j hj => h.near.address_ends hj (h.strided j hj))
    (Nat.le_of_eq (Nat.zero_add _))

theorem Reaches.runPairs_ends (h : d.Reaches fault) :
    Ends fault (· = (List.range d.shape.runs).map d.runPair) d.runPairs := by
  refine h.runStarts_ends.bind fun starts hstarts => ?_
  show starts.mapIdx _ = _
  rw [hstarts]
  exact List.ext_getElem (by simp) fun i _ _ => by simp [runPair]

/-! ## Chunks of outer blocks -/

/-- The transfer of `count` outer blocks, from block `first` on. -/
def chunk (d : Descriptor) (first count : Nat) : Descriptor := { d with
  ext := ⟨d.ext.tier, d.shape.runAt d.ext.addr (first * d.shape.middle.steps)⟩
  loc := ⟨d.loc.tier, d.loc.addr + first * d.shape.blockBytes⟩
  shape := d.shape.withBlocks count }

variable {first count : Nat}

theorem chunk_runs (hcount : 0 < count) :
    (d.chunk first count).shape.runs = count * d.shape.middle.steps := by
  have hsteps : (d.chunk first count).shape.outer.steps = count := if_neg (Nat.ne_of_gt hcount)
  rw [Shape.runs, hsteps]
  exact Nat.mul_comm _ _

theorem chunk_lt_runs (hcount : 0 < count) (hlast : first + count ≤ d.shape.outer.steps) {j : Nat}
    (hj : j < (d.chunk first count).shape.runs) :
    first * d.shape.middle.steps + j < d.shape.runs := by
  rw [chunk_runs hcount] at hj
  have hblocks := Nat.mul_le_mul_right d.shape.middle.steps hlast
  rw [Nat.add_mul] at hblocks
  rw [Shape.runs, Nat.mul_comm d.shape.middle.steps]
  omega

/-- A piece whose first run can be addressed has the runs of the whole from there on. -/
theorem chunk_signed
    (hin : Signed.InRange (signed d.ext.addr + d.shape.offset (first * d.shape.middle.steps)))
    (count j : Nat) :
    signed (d.chunk first count).ext.addr + (d.chunk first count).shape.offset j =
      signed d.ext.addr + d.shape.offset (first * d.shape.middle.steps + j) := by
  show signed (unsigned (signed d.ext.addr + d.shape.offset (first * d.shape.middle.steps))) +
    d.shape.offset j = _
  rw [signed_unsigned hin, d.shape.offset_block, d.shape.offset_outer, Int.add_assoc]

theorem chunk_runAt
    (hin : Signed.InRange (signed d.ext.addr + d.shape.offset (first * d.shape.middle.steps)))
    (count j : Nat) :
    (d.chunk first count).shape.runAt (d.chunk first count).ext.addr j =
      d.shape.runAt d.ext.addr (first * d.shape.middle.steps + j) := by
  rw [Shape.runAt_eq, chunk_signed hin, Shape.runAt_eq]

theorem chunk_runPair
    (hin : Signed.InRange (signed d.ext.addr + d.shape.offset (first * d.shape.middle.steps)))
    (count j : Nat) :
    (d.chunk first count).runPair j = d.runPair (first * d.shape.middle.steps + j) := by
  have hpacked : d.loc.addr + first * d.shape.blockBytes + j * d.shape.runBytes =
      d.loc.addr + (first * d.shape.middle.steps + j) * d.shape.runBytes := by
    rw [Nat.add_mul, Shape.blockBytes, Nat.mul_comm d.shape.runBytes, ← Nat.mul_assoc, Nat.add_assoc]
  exact Prod.ext (chunk_runAt hin count j) hpacked

theorem chunk_byteCount (hcount : 0 < count) :
    (d.chunk first count).byteCount = count * d.shape.blockBytes := by
  show d.shape.runBytes * (d.chunk first count).shape.runs = _
  rw [chunk_runs hcount, Shape.blockBytes, Nat.mul_left_comm]

theorem Reaches.chunk (h : d.Reaches fault) (hcount : 0 < count)
    (hlast : first + count ≤ d.shape.outer.steps)
    (hin : Signed.InRange (signed d.ext.addr + d.shape.offset (first * d.shape.middle.steps))) :
    (d.chunk first count).Reaches fault := by
  refine ⟨fun i hi j hj => ?_, fun j hj => ?_, fun j hj => ?_, ?_⟩
  · -- both runs are seen from another base
    have hboth := h.near _ (chunk_lt_runs hcount hlast hi) _ (chunk_lt_runs hcount hlast hj)
    rw [d.shape.offset_block, d.shape.offset_block] at hboth
    have hsame : d.shape.offset j - d.shape.offset i =
        (first * d.shape.outer.stride + d.shape.offset j) -
          (first * d.shape.outer.stride + d.shape.offset i) := by omega
    show Signed.InRange (d.shape.offset j - d.shape.offset i)
    rw [hsame]
    exact hboth
  · rw [chunk_signed hin]
    exact h.strided _ (chunk_lt_runs hcount hlast hj)
  · have hpacked := h.packed _ (chunk_lt_runs hcount hlast hj)
    have hpair := congrArg Prod.snd (chunk_runPair hin count j)
    simp only [runPair] at hpair
    rw [hpair]
    exact hpacked
  · have hbytes := Nat.mul_le_mul_right d.shape.blockBytes hlast
    have htotal := h.total
    rw [byteCount, Shape.byteCount_eq_blocks] at htotal
    rw [Nat.add_mul] at hbytes
    rw [chunk_byteCount hcount]
    omega

/-- The chunk that unit `part` of `parts` moves, none if no block is left for it. -/
def chunkOf (d : Descriptor) (part parts : Nat) : Option Descriptor :=
  let first := part * blocks d.shape.outer.steps parts
  if d.shape.outer.steps ≤ first then none
  else some (d.chunk first (shareBlocks d.shape.outer.steps part parts))

theorem Reaches.split_ends (h : d.Reaches fault) {part parts : Nat} (hpart : part < parts)
    (hstart : part * blocks d.shape.outer.steps parts < 0x10000000000000000) :
    Ends fault (fun share => share = d.chunkOf part parts ∧ (share.isSome → Signed.InRange
      (signed d.ext.addr +
        d.shape.offset (part * blocks d.shape.outer.steps parts * d.shape.middle.steps))))
      (d.split part parts) := by
  have hmax : max parts 1 = parts := by omega
  have hchunk : (d.shape.outer.steps + parts - 1) / parts = blocks d.shape.outer.steps parts := rfl
  simp only [split, chunkOf, shareBlocks, hmax, hchunk]
  rw [mul_of_lt hstart, Checked.ok_bind]
  generalize part * blocks d.shape.outer.steps parts = first
  by_cases hnone : d.shape.outer.steps ≤ first
  · rw [if_pos hnone, if_pos hnone]
    exact ⟨rfl, fun hsome => absurd hsome Bool.false_ne_true⟩
  · rw [if_neg hnone, if_neg hnone]
    have hlt : first < d.shape.outer.steps := by omega
    have hrun := Shape.block_lt_runs hlt
    -- the deltas of both endpoints are distances inside the transfer
    have hext := h.near 0 d.shape.runs_pos _ hrun
    rw [Shape.offset_zero, Int.sub_zero, Shape.offset_outer] at hext
    have hbytes := Nat.mul_le_mul_right d.shape.blockBytes (Nat.le_of_lt hlt)
    have hblock := Nat.le_mul_of_pos_left d.shape.blockBytes d.shape.outer.steps_pos
    have htotal := h.total
    rw [byteCount, Shape.byteCount_eq_blocks] at htotal
    have hloc := h.packed _ hrun
    rw [Nat.mul_assoc, Nat.mul_comm d.shape.middle.steps] at hloc
    change d.loc.addr + first * d.shape.blockBytes < _ at hloc
    have hword : signed d.shape.blockBytes = d.shape.blockBytes := signed_of_lt (by omega)
    rw [Signed.mul_eq_ok_iff.mpr ⟨hext, rfl⟩, Checked.ok_bind, hword, Signed.mul_of_lt (by omega),
      Checked.ok_bind, Endpoint.displace, bind_assoc]
    refine (Signed.add_ends ?_).bind fun z hz => ?_
    · have hin := h.strided _ hrun
      rwa [Shape.offset_outer] at hin
    · rw [← Shape.offset_outer] at hz
      rw [pure_bind, Endpoint.displace_of_lt hloc]
      refine ⟨?_, fun _ => hz.1 ▸ hz.2⟩
      rw [hz.1]
      rfl

/-! ## All chunks together -/

/-- The numbers of the runs that unit `part` of `parts` moves. -/
def ownRuns (d : Descriptor) (part parts : Nat) : List Nat :=
  List.range' (part * blocks d.shape.outer.steps parts * d.shape.middle.steps)
    (shareBlocks d.shape.outer.steps part parts * d.shape.middle.steps)

/-- Consecutive rows of a length each begin where the one before ends. -/
theorem flatMap_rows (n chunk m k : Nat) :
    ((List.range k).flatMap fun i => List.range' (i * chunk * m) (min chunk (n - i * chunk) * m)) =
      List.range (min (k * chunk) n * m) := by
  induction k with
  | zero => simp
  | succ k ih =>
    rw [List.range_succ, List.flatMap_append, ih, List.flatMap_singleton, Nat.succ_mul]
    by_cases hlast : k * chunk ≤ n
    · have hlen : min (k * chunk + chunk) n = k * chunk + min chunk (n - k * chunk) := by omega
      rw [Nat.min_eq_left hlast, hlen, Nat.add_mul, List.range_add, List.range'_eq_map_range]
    · have hdone : min (k * chunk + chunk) n = n := by omega
      have hempty : min chunk (n - k * chunk) = 0 := by omega
      rw [Nat.min_eq_right (by omega), hdone, hempty, Nat.zero_mul, List.range'_zero,
        List.append_nil]

theorem flatMap_ownRuns (d : Descriptor) {parts : Nat} (hparts : 0 < parts) :
    (List.range parts).flatMap (d.ownRuns · parts) = List.range d.shape.runs := by
  have hcover : d.shape.outer.steps ≤ parts * blocks d.shape.outer.steps parts := by
    rw [Nat.mul_comm]
    exact le_blocks_mul hparts
  have hrows := flatMap_rows d.shape.outer.steps (blocks d.shape.outer.steps parts)
    d.shape.middle.steps parts
  rwa [Nat.min_eq_right hcover, Nat.mul_comm d.shape.outer.steps] at hrows

/-- A unit has a chunk exactly if it has a block; the chunk then begins where its runs do. -/
theorem chunkOf_eq_some_iff {part parts : Nat} {d' : Descriptor} (hparts : 0 < parts) :
    d.chunkOf part parts = some d' ↔ 0 < shareBlocks d.shape.outer.steps part parts ∧
      d' = d.chunk (part * blocks d.shape.outer.steps parts)
        (shareBlocks d.shape.outer.steps part parts) := by
  have hchunk : 0 < blocks d.shape.outer.steps parts := blocks_pos hparts d.shape.outer.steps_pos
  unfold chunkOf
  have hiff : d.shape.outer.steps ≤ part * blocks d.shape.outer.steps parts ↔
      shareBlocks d.shape.outer.steps part parts = 0 := by
    unfold shareBlocks
    omega
  by_cases hnone : shareBlocks d.shape.outer.steps part parts = 0
  · simp only []
    rw [if_pos (hiff.mpr hnone), hnone]
    simp
  · simp only []
    rw [if_neg (fun h => hnone (hiff.mp h)), Option.some_inj]
    exact ⟨fun h => ⟨by omega, h.symm⟩, fun h => h.2.symm⟩

/-- The start of every run of a transfer on both sides. -/
def moved (d : Descriptor) : List (Nat × Nat) := (List.range d.shape.runs).map d.runPair

theorem shareBlocks_le {n part parts : Nat} (hpos : 0 < shareBlocks n part parts) :
    part * blocks n parts + shareBlocks n part parts ≤ n := by
  unfold shareBlocks at hpos ⊢
  omega

theorem ownRuns_of_none {part parts : Nat} (hparts : 0 < parts) (h : d.chunkOf part parts = none) :
    d.ownRuns part parts = [] := by
  have hnone : shareBlocks d.shape.outer.steps part parts = 0 := by
    by_contra hsome
    have := (chunkOf_eq_some_iff hparts).mpr ⟨Nat.pos_of_ne_zero hsome, rfl⟩
    rw [h] at this
    cases this
  simp [ownRuns, hnone]

/-- The chunk of a unit moves the runs that the unit owns. -/
theorem moved_of_some {part parts : Nat} {d' : Descriptor} (hparts : 0 < parts)
    (h : d.chunkOf part parts = some d')
    (hin : Signed.InRange (signed d.ext.addr +
      d.shape.offset (part * blocks d.shape.outer.steps parts * d.shape.middle.steps))) :
    d'.moved = (d.ownRuns part parts).map d.runPair := by
  obtain ⟨hpos, rfl⟩ := (chunkOf_eq_some_iff hparts).mp h
  rw [moved, chunk_runs hpos, ownRuns, List.range'_eq_map_range, List.map_map]
  exact List.map_congr_left fun j _ => chunk_runPair hin _ j

/-- The chunks of all units. -/
def chunks (d : Descriptor) (parts : Nat) : List Descriptor :=
  (List.range parts).filterMap (d.chunkOf · parts)

/-- What all units of a team get. -/
def splitAll (d : Descriptor) (parts : Nat) : Checked (List Descriptor) := do
  return (← (List.range parts).mapM (d.split · parts)).reduceOption

section Chunks

variable {parts : Nat}

theorem Reaches.inRange (h : d.Reaches fun _ => False) {o : Nat} (ho : o < d.shape.outer.steps) :
    Signed.InRange (signed d.ext.addr + d.shape.offset (o * d.shape.middle.steps)) :=
  (h.strided _ (Shape.block_lt_runs ho)).resolve_right id

theorem mem_chunks (hparts : 0 < parts) {d' : Descriptor} (h : d' ∈ d.chunks parts) :
    ∃ first count, 0 < count ∧ first + count ≤ d.shape.outer.steps ∧ d' = d.chunk first count := by
  obtain ⟨part, -, hsome⟩ := List.mem_filterMap.mp h
  obtain ⟨hpos, rfl⟩ := (chunkOf_eq_some_iff hparts).mp hsome
  exact ⟨_, _, hpos, shareBlocks_le hpos, rfl⟩

theorem Reaches.splitAll_eq (h : d.Reaches fun _ => False)
    (hparts : d.shape.outer.size + parts < 0x8000000000000000) :
    d.splitAll parts = .ok (d.chunks parts) := by
  have hsteps : d.shape.outer.steps ≤ d.shape.outer.size + 1 := by
    rw [Shape.steps_eq]
    omega
  have hstart : ∀ part < parts, part * blocks d.shape.outer.steps parts < 0x10000000000000000 := by
    intro part hpart
    have := mul_blocks_lt (n := d.shape.outer.steps) hpart
    omega
  have hall : (List.range parts).mapM (d.split · parts) =
      .ok ((List.range parts).map (d.chunkOf · parts)) := by
    have hends : Ends (fun _ => False) (· = (List.range parts).map (d.chunkOf · parts))
        ((List.range parts).mapM (d.split · parts)) :=
      mapM_ends_map fun part hpart => by
        have hpart := List.mem_range.mp hpart
        exact (h.split_ends hpart (hstart part hpart)).mono (fun _ => id) fun _ hshare => hshare.1
    obtain ⟨options, hoptions, rfl⟩ := hends.ok_of_never fun _ => id
    exact hoptions
  rw [splitAll, hall]
  show Except.ok ((List.map _ _).reduceOption) = _
  rw [List.reduceOption, List.filterMap_map]
  rfl

/-- The chunks together move the runs of the whole transfer, in order. -/
theorem Reaches.flatMap_chunks (h : d.Reaches fun _ => False) (hparts : 0 < parts) :
    (d.chunks parts).flatMap moved = d.moved := by
  have howned : ∀ part, (d.chunkOf part parts).toList.flatMap moved =
      (d.ownRuns part parts).map d.runPair := by
    intro part
    cases hchunk : d.chunkOf part parts with
    | none => rw [ownRuns_of_none hparts hchunk]; rfl
    | some d' =>
      obtain ⟨hpos, -⟩ := (chunkOf_eq_some_iff hparts).mp hchunk
      have hle := shareBlocks_le hpos
      rw [Option.toList_some, List.flatMap_singleton]
      exact moved_of_some hparts hchunk (h.inRange (by omega))
  rw [chunks, List.filterMap_eq_flatMap_toList, List.flatMap_assoc]
  simp only [howned]
  rw [← List.map_flatMap, d.flatMap_ownRuns hparts, moved]

theorem Reaches.chunks_runPairs (h : d.Reaches fun _ => False) (hparts : 0 < parts) :
    (d.chunks parts).mapM runPairs = .ok ((d.chunks parts).map moved) := by
  have hends : Ends (fun _ => False) (· = (d.chunks parts).map moved)
      ((d.chunks parts).mapM runPairs) := by
    refine mapM_ends_map fun d' hd' => ?_
    obtain ⟨first, count, hcount, hlast, rfl⟩ := mem_chunks hparts hd'
    exact (h.chunk hcount hlast (h.inRange (by omega))).runPairs_ends
  obtain ⟨lists, hlists, rfl⟩ := hends.ok_of_never fun _ => id
  exact hlists

end Chunks

/-! ## What the chunks do to the bytes -/

theorem chunk_byteAddress
    (hin : Signed.InRange (signed d.ext.addr + d.shape.offset (first * d.shape.middle.steps)))
    (count : Nat) {p : Nat} (hrun : 0 < d.shape.runBytes) :
    (d.chunk first count).shape.byteAddress (d.chunk first count).ext.addr p =
      d.shape.byteAddress d.ext.addr (first * d.shape.blockBytes + p) := by
  have hskip : first * d.shape.blockBytes + p =
      d.shape.runBytes * (first * d.shape.middle.steps) + p := by
    rw [Shape.blockBytes, Nat.mul_left_comm]
  rw [Shape.byteAddress, chunk_runAt hin, Shape.byteAddress, hskip, Nat.mul_add_div hrun,
    Nat.mul_add_mod]
  rfl

theorem chunk_part (hcount : 0 < count) (hlast : first + count ≤ d.shape.outer.steps)
    (hin : Signed.InRange (signed d.ext.addr + d.shape.offset (first * d.shape.middle.steps))) :
    (d.chunk first count).Part d (first * d.shape.blockBytes) := by
  have hrun : ∀ p < (d.chunk first count).byteCount, 0 < d.shape.runBytes := fun p hp =>
    Nat.pos_of_mul_pos_right (Nat.zero_lt_of_lt hp)
  refine ⟨rfl, rfl, ?_, fun p hp => ?_, fun p hp => ?_⟩
  · rw [chunk_byteCount hcount, ← Nat.add_mul, byteCount, Shape.byteCount_eq_blocks]
    exact Nat.mul_le_mul_right _ hlast
  · have hat := chunk_byteAddress hin count (p := p) (hrun p hp)
    cases hdir : d.direction with
    | gather =>
      simp only [source, chunk, hdir]
      exact congrArg (Endpoint.mk _) hat
    | scatter =>
      simp only [source, chunk, hdir]
      exact congrArg (Endpoint.mk _) (Nat.add_assoc _ _ _)
  · have hat := chunk_byteAddress hin count (p := p) (hrun p hp)
    cases hdir : d.direction with
    | gather =>
      simp only [target, chunk, hdir]
      exact congrArg (Endpoint.mk _) (Nat.add_assoc _ _ _)
    | scatter =>
      simp only [target, chunk, hdir]
      exact congrArg (Endpoint.mk _) hat

theorem Fits.chunk (h : d.Fits) (hreach : d.Reaches fun _ => False) (hcount : 0 < count)
    (hlast : first + count ≤ d.shape.outer.steps) : (d.chunk first count).Fits := by
  have hin := hreach.inRange (o := first) (by omega)
  have hchunk := hreach.chunk hcount hlast hin
  have hwithin := (chunk_part hcount hlast hin).within
  refine ⟨⟨fun j hj => ?_, ?_⟩, Nat.le_trans (by omega) h.buffer⟩
  · have hfits := h.runs.fits (chunk_lt_runs hcount hlast hj)
    rw [← chunk_runAt hin count] at hfits
    obtain ⟨a, ha, rfl⟩ := (hchunk.near.address_ends hj (hchunk.strided j hj)).ok_of_never fun _ => id
    exact ⟨_, ha, hfits⟩
  · refine h.packed.imp (fun hnone => by omega) fun hlt => ?_
    show d.loc.addr + first * d.shape.blockBytes + _ < _
    omega

theorem Reaches.covers_chunks (h : d.Reaches fun _ => False) {parts : Nat} (hparts : 0 < parts) :
    Covers (d.chunks parts) [d] := by
  refine ⟨fun d' hd' => ?_, fun w hw p hp => ?_⟩
  · obtain ⟨first, count, hcount, hlast, rfl⟩ := mem_chunks hparts hd'
    exact ⟨d, List.mem_singleton_self d, _, chunk_part hcount hlast (h.inRange (by omega))⟩
  · -- the unit that owns the run of byte `p`
    rw [List.mem_singleton.mp hw] at hp ⊢
    have hrun : 0 < d.shape.runBytes := Nat.pos_of_mul_pos_right (Nat.zero_lt_of_lt hp)
    have hj : p / d.shape.runBytes < d.shape.runs := Nat.div_lt_of_lt_mul hp
    rw [← List.mem_range, ← d.flatMap_ownRuns hparts] at hj
    obtain ⟨part, hpart, hj⟩ := List.mem_flatMap.mp hj
    obtain ⟨hlo, hhi⟩ := List.mem_range'_1.mp hj
    have hpos : 0 < shareBlocks d.shape.outer.steps part parts := by
      by_contra hnone
      rw [Nat.eq_zero_of_not_pos hnone, Nat.zero_mul] at hhi
      omega
    have hlast := shareBlocks_le hpos
    have hmem : d.chunk _ _ ∈ d.chunks parts :=
      List.mem_filterMap.mpr ⟨part, hpart, (chunkOf_eq_some_iff hparts).mpr ⟨hpos, rfl⟩⟩
    generalize part * blocks d.shape.outer.steps parts = first at *
    generalize shareBlocks d.shape.outer.steps part parts = count at *
    have hblock : ∀ n, n * d.shape.blockBytes = n * d.shape.middle.steps * d.shape.runBytes := by
      intro n
      rw [Shape.blockBytes, Nat.mul_comm d.shape.runBytes, Nat.mul_assoc]
    have hbegin := (Nat.le_div_iff_mul_le hrun).mp hlo
    have hend := (Nat.div_lt_iff_lt_mul hrun).mp hhi
    rw [Nat.add_mul, ← hblock, ← hblock] at hend
    rw [← hblock] at hbegin
    refine ⟨_, hmem, _, p - first * d.shape.blockBytes, chunk_part hpos hlast (h.inRange (by omega)),
      ?_, by omega⟩
    rw [chunk_byteCount hpos]
    omega

/-- No byte that a transfer reads is one that it writes. -/
def SidesApart (d : Descriptor) : Prop :=
  ∀ p < d.byteCount, ∀ q < d.byteCount, d.source p ≠ d.target q

/-- No byte is written by two runs of a transfer. -/
def TargetsApart (d : Descriptor) : Prop :=
  ∀ p < d.byteCount, ∀ q < d.byteCount, d.target p = d.target q → p = q

/-- Every byte has an origin before a transfer that reads nothing it writes, and writes no byte twice. -/
theorem exists_origin (hsides : d.SidesApart) (htargets : d.TargetsApart) (e : Endpoint) :
    ∃ source, Origin [d] e source := by
  by_cases hwritten : ∃ p < d.byteCount, d.target p = e
  · obtain ⟨p, hp, rfl⟩ := hwritten
    refine ⟨d.source p, .copied ?_ ⟨d, List.mem_singleton_self d, p, hp, rfl⟩ ?_⟩
    · intro w hw q hq
      rw [List.mem_singleton.mp hw] at hq ⊢
      exact (hsides p hp q hq).symm
    · intro w hw q hq htarget
      rw [List.mem_singleton.mp hw] at hq htarget ⊢
      rw [htargets q hq p hp htarget]
  · refine ⟨e, .kept fun w hw p hp htarget => hwritten ?_⟩
    rw [List.mem_singleton.mp hw] at hp htarget
    exact ⟨p, hp, htarget⟩

/-- The parts of such a transfer do the same as the whole, in every order. -/
theorem applyAll_parts (hsides : d.SidesApart) (htargets : d.TargetsApart) {ds : List Descriptor}
    (hcovers : Covers ds [d]) (img : Image) : img.applyAll ds = d.apply img := by
  funext e
  obtain ⟨source, horigin⟩ := exists_origin hsides htargets e
  rw [hcovers.origin horigin]
  exact ((Covers.self [d]).origin horigin).symm

end Descriptor

theorem Covers.of_perm {ds es wholes : List Descriptor} (h : Covers ds wholes) (hperm : es.Perm ds) :
    Covers es wholes := by
  refine ⟨fun d hd => h.parts d (hperm.mem_iff.mp hd), fun w hw p hp => ?_⟩
  obtain ⟨d, hd, hrest⟩ := h.all w hw p hp
  exact ⟨d, hperm.mem_iff.mpr hd, hrest⟩

/-- Transfers from one tier read their bytes from it. -/
theorem readBytes_eq_sum {t : Tier} {ds : List Descriptor} (h : ∀ d ∈ ds, d.sourceTier = t) :
    readBytes t ds = (ds.map Descriptor.byteCount).sum := by
  induction ds with
  | nil => rfl
  | cons d ds ih =>
    rw [readBytes, if_pos (h d List.mem_cons_self).symm,
      ih fun d' hd' => h d' (List.mem_cons_of_mem d hd'), List.map_cons, List.sum_cons]

namespace Descriptor

variable {d : Descriptor}

theorem Reaches.sum_chunks (h : d.Reaches fun _ => False) {parts : Nat} (hparts : 0 < parts) :
    ((d.chunks parts).map byteCount).sum = d.byteCount := by
  have hruns : ((d.chunks parts).map fun d' => d'.shape.runs).sum = d.shape.runs := by
    have hlength := congrArg List.length (h.flatMap_chunks hparts)
    simpa [List.length_flatMap, moved] using hlength
  have hbytes : (d.chunks parts).map byteCount =
      (d.chunks parts).map fun d' => d.shape.runBytes * d'.shape.runs := by
    refine List.map_congr_left fun d' hd' => ?_
    obtain ⟨first, count, -, -, rfl⟩ := mem_chunks hparts hd'
    rfl
  rw [hbytes, List.sum_map_mul_left, hruns]
  rfl

theorem Reaches.readBytes_chunks (h : d.Reaches fun _ => False) {parts : Nat} (hparts : 0 < parts)
    {order : List Descriptor} (hperm : order.Perm (d.chunks parts)) :
    readBytes d.sourceTier order = d.byteCount := by
  rw [readBytes_perm hperm, readBytes_eq_sum, h.sum_chunks hparts]
  intro d' hd'
  obtain ⟨first, count, -, -, rfl⟩ := mem_chunks hparts hd'
  rfl

/-! ## Transfers that can be addressed -/

/-- A transfer of less than `2 ^ 63` bytes whose every run begins below `2 ^ 63`, on both sides. -/
structure InLowerHalf (d : Descriptor) : Prop where
  total : ∃ bytes, d.totalBytes = .ok bytes ∧ bytes < 0x8000000000000000
  strided : ∀ j < d.shape.runs, 0 ≤ d.shape.runAddress d.ext.addr j ∧
    d.shape.runAddress d.ext.addr j < 0x8000000000000000
  packed : ∀ j < d.shape.runs, d.loc.addr + j * d.shape.runBytes < 0x8000000000000000

theorem InLowerHalf.byteCount_lt (h : d.InLowerHalf) : d.byteCount < 0x8000000000000000 := by
  obtain ⟨bytes, htotal, hlt⟩ := h.total
  obtain ⟨-, rfl⟩ := Shape.totalBytes_eq_ok_iff.mp htotal
  exact hlt

theorem InLowerHalf.reaches (h : d.InLowerHalf) : d.Reaches fun _ => False where
  near := Shape.InLowerHalf.near h.strided
  strided _ hj := .inl (Shape.InLowerHalf.signed_inRange h.strided hj)
  packed := h.packed
  total := h.byteCount_lt

theorem InLowerHalf.runAt_lt (h : d.InLowerHalf) {j : Nat} (hj : j < d.shape.runs) :
    d.shape.runAt d.ext.addr j < 0x8000000000000000 := by
  rw [Shape.InLowerHalf.runAt_eq h.strided hj]
  have := h.strided j hj
  omega

theorem InLowerHalf.fits (h : d.InLowerHalf) : d.Fits := by
  have hbytes := h.byteCount_lt
  have hrun : d.shape.runBytes ≤ d.byteCount := Nat.le_mul_of_pos_right _ d.shape.runs_pos
  have hloc := h.packed 0 d.shape.runs_pos
  refine ⟨⟨fun j hj => ⟨d.shape.runAt d.ext.addr j, ?_, .inr ?_⟩, .inr ?_⟩, ?_⟩
  · rw [Shape.InLowerHalf.runAt_eq h.strided hj]
    exact Shape.InLowerHalf.address h.strided hj
  · have := h.runAt_lt hj
    show _ < 0x10000000000000000
    omega
  · show _ < 0x10000000000000000
    omega
  · unfold maxBuffer
    omega

/-- Retiring the chunks in any order does to the bytes what retiring the transfer does. -/
theorem InLowerHalf.drain_chunks (h : d.InLowerHalf) {parts : Nat} (hparts : 0 < parts)
    (hsides : d.SidesApart) (htargets : d.TargetsApart) {order : List Descriptor}
    (hperm : order.Perm (d.chunks parts)) {m : Memory} {q q' : Queue} (hwhole : q.pending = [d])
    (horder : q'.pending = order) :
    ((∃ s, Device.drain ⟨m, q⟩ = .ok () s) ↔
      m.readCount d.sourceTier + d.byteCount < wordLimit) ∧
    ∀ s, Device.drain ⟨m, q⟩ = .ok () s →
      ∃ s', Device.drain ⟨m, q'⟩ = .ok () s' ∧ s'.memory.image = s.memory.image := by
  have hfits : ∀ d' ∈ order, d'.Fits := by
    intro d' hd'
    obtain ⟨first, count, hcount, hlast, rfl⟩ := mem_chunks hparts (hperm.mem_iff.mp hd')
    exact h.fits.chunk h.reaches hcount hlast
  have htier : ∀ d' ∈ order, d'.sourceTier = d.sourceTier := by
    intro d' hd'
    obtain ⟨first, count, -, -, rfl⟩ := mem_chunks hparts (hperm.mem_iff.mp hd')
    rfl
  have hiff : (∃ s, Device.drain ⟨m, q⟩ = .ok () s) ↔
      m.readCount d.sourceTier + d.byteCount < wordLimit := by
    have hhead := Device.retireHead_finishes_iff (s := ⟨m, q⟩) hwhole h.fits.toAddressed
    rw [Device.drain_eq, hwhole]
    constructor
    · rintro ⟨s, hdrain⟩
      obtain ⟨u, s₁, hfirst, -⟩ := Stateful.bind_eq_ok.mp hdrain
      exact (hhead.mp ⟨s₁, hfirst⟩).2
    · intro hroom
      obtain ⟨s₁, hfirst⟩ := hhead.mpr ⟨h.fits.buffer, hroom⟩
      exact ⟨s₁, Stateful.bind_of_ok hfirst⟩
  refine ⟨hiff, fun s hdrain => ?_⟩
  have hroom := hiff.mp ⟨s, hdrain⟩
  obtain ⟨s', hdrain'⟩ : ∃ s', Device.drain ⟨m, q'⟩ = .ok () s' := by
    rw [Device.drain_eq]
    refine Device.retire_exists (Nat.le_refl _) ?_ ?_
    · rw [horder]
      exact hfits
    · intro d' hd'
      simp only [horder] at hd' ⊢
      rw [htier d' hd', h.reaches.readBytes_chunks hparts hperm]
      exact hroom
  refine ⟨s', hdrain', ?_⟩
  have hafter := Device.drain_inv (s := ⟨m, q⟩) (by
    rw [hwhole]
    exact fun e he => List.mem_singleton.mp he ▸ h.fits.toAddressed) hdrain
  have hafter' := Device.drain_inv (s := ⟨m, q'⟩) (by
    rw [horder]
    exact fun e he => (hfits e he).toAddressed) hdrain'
  rw [hafter.image, hafter'.image, List.take_length, List.take_length, hwhole, horder]
  exact applyAll_parts hsides htargets ((h.reaches.covers_chunks hparts).of_perm hperm) _

end Descriptor

open Descriptor

/-- **The shares of a transfer make up the whole.** Every unit of a team gets its share without a fault, and
the runs of the shares one after the other are the runs of the transfer, each of them once and in its
place; the packed addresses of runs that are not empty are all different. If the transfer reads
nothing that it writes and writes no byte twice, the shares may retire in any order: where the whole
transfer retires they do, and they leave the same bytes. -/
theorem shares_compose {d : Descriptor} (hd : d.InLowerHalf) {parts : Nat} (hparts : 0 < parts)
    (hblocks : d.shape.outer.size + parts < 0x8000000000000000) :
    ∃ shares lists pairs, d.splitAll parts = .ok shares ∧ shares.mapM runPairs = .ok lists ∧
      d.runPairs = .ok pairs ∧ lists.flatten = pairs ∧ pairs.length = d.shape.runs ∧
      (0 < d.shape.runBytes → pairs.Nodup) ∧
      (d.SidesApart → d.TargetsApart → ∀ order, order.Perm shares → ∀ (m : Memory) (q q' : Queue),
        q.pending = [d] → q'.pending = order →
          ((∃ s, Device.drain ⟨m, q⟩ = .ok () s) ↔
            m.readCount d.sourceTier + d.byteCount < wordLimit) ∧
          ∀ s, Device.drain ⟨m, q⟩ = .ok () s →
            ∃ s', Device.drain ⟨m, q'⟩ = .ok () s' ∧ s'.memory.image = s.memory.image) := by
  obtain ⟨pairs, hpairs, rfl⟩ := hd.reaches.runPairs_ends.ok_of_never fun _ => id
  refine ⟨_, _, _, hd.reaches.splitAll_eq hblocks, hd.reaches.chunks_runPairs hparts, hpairs,
    ?_, by simp, fun hrun => ?_, ?_⟩
  · rw [← List.flatMap_def, hd.reaches.flatMap_chunks hparts, moved]
  · -- packed addresses tell the runs apart
    refine List.Nodup.map (fun i j hij => ?_) List.nodup_range
    have hpacked : d.loc.addr + i * d.shape.runBytes = d.loc.addr + j * d.shape.runBytes :=
      congrArg Prod.snd hij
    exact Nat.eq_of_mul_eq_mul_right hrun (Nat.add_left_cancel hpacked)
  · intro hsides htargets order hperm m q q' hwhole horder
    exact hd.drain_chunks hparts hsides htargets hperm hwhole horder

/-- Rows that are stored backwards: three rows of three runs, each run four bytes before the last one. -/
def backwardRows : Descriptor where
  payload := .output
  direction := .scatter
  ext := ⟨.mid, 100⟩
  loc := ⟨.scratchpad, 0⟩
  shape := ⟨2, ⟨3, -4⟩, ⟨3, 16⟩⟩

/-- Two units store them, in either order. -/
theorem shares_compose_backwards :
    backwardRows.InLowerHalf ∧ backwardRows.SidesApart ∧ backwardRows.TargetsApart ∧
    ∃ shares lists pairs, backwardRows.splitAll 2 = .ok shares ∧ shares.mapM runPairs = .ok lists ∧
      backwardRows.runPairs = .ok pairs ∧ lists.flatten = pairs ∧ pairs.length = 9 ∧ pairs.Nodup ∧
      ∀ order, order.Perm shares → ∀ (m : Memory) (q q' : Queue),
        q.pending = [backwardRows] → q'.pending = order →
          ((∃ s, Device.drain ⟨m, q⟩ = .ok () s) ↔ m.readCount .scratchpad + 18 < wordLimit) ∧
          ∀ s, Device.drain ⟨m, q⟩ = .ok () s →
            ∃ s', Device.drain ⟨m, q'⟩ = .ok () s' ∧ s'.memory.image = s.memory.image := by
  have hlow : backwardRows.InLowerHalf := ⟨⟨18, rfl, by decide⟩, by decide, by decide⟩
  have hsides : backwardRows.SidesApart := fun _ _ _ _ h => by cases h
  have htargets : backwardRows.TargetsApart := by
    unfold TargetsApart
    decide +kernel
  obtain ⟨shares, lists, pairs, hshares, hlists, hpairs, hflat, hlength, hnodup, hretire⟩ :=
    shares_compose hlow (show 0 < 2 by decide) (by decide)
  exact ⟨hlow, hsides, htargets, shares, lists, pairs, hshares, hlists, hpairs, hflat, hlength,
    hnodup (by decide), hretire hsides htargets⟩

end TileStream
