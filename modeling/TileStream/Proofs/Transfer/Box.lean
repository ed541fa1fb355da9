import TileStream.Proofs.Transfer.Effect

/-! # Box-shaped transfers and their shares

A box is a shape whose distances are sizes. Its byte addresses are sums of three
digits of the byte number, and `split` cuts it between the units of a team:
`Part` says that a share moves a contiguous part of the bytes of the whole, and
`exists_share` that every byte is in some share. -/
namespace TileStream

open Unsigned

namespace Shape

/-- Runs that lie sizes apart. -/
def box (run m ms o os : Nat) : Shape := ⟨run, ⟨m, (ms : Int)⟩, ⟨o, (os : Int)⟩⟩

variable {run m ms o os base : Nat}

theorem steps_eq (d : Dimension) : d.steps = max d.size 1 := by
  unfold Dimension.steps
  split <;> omega

theorem box_steps (run m ms o os : Nat) :
    (box run m ms o os).middle.steps = max m 1 ∧ (box run m ms o os).outer.steps = max o 1 :=
  ⟨steps_eq _, steps_eq _⟩

theorem box_byteCount (run m ms o os : Nat) :
    (box run m ms o os).byteCount = run * (max m 1 * max o 1) := by
  obtain ⟨hm, ho⟩ := box_steps run m ms o os
  rw [byteCount, runs, hm, ho]
  rfl

/-- A box takes no more room than one that is as large in every direction. -/
theorem box_byteCount_le {run m ms o os K C R : Nat} (hrun : run ≤ K) (hm : m ≤ C) (ho : o ≤ R)
    (hC : 0 < C) (hR : 0 < R) : (box run m ms o os).byteCount ≤ R * C * K := by
  rw [box_byteCount, Nat.mul_comm, Nat.mul_comm (max m 1)]
  exact Nat.mul_le_mul (Nat.mul_le_mul (Nat.max_le.mpr ⟨ho, hR⟩) (Nat.max_le.mpr ⟨hm, hC⟩)) hrun

theorem box_runAt (hbase : base < 0x8000000000000000) (j : Nat) :
    (box run m ms o os).runAt base j = base + j % max m 1 * ms + j / max m 1 * os := by
  unfold runAt
  rw [(box_steps run m ms o os).1, signed_of_lt hbase]
  simp only [box]
  rw [← Int.natCast_mul, ← Int.natCast_mul, ← Int.natCast_add, ← Int.natCast_add,
    unsigned_natCast, Nat.add_assoc]

theorem box_byteAddress (hbase : base < 0x8000000000000000) (p : Nat) :
    (box run m ms o os).byteAddress base p =
      base + p / run % max m 1 * ms + p / run / max m 1 * os + p % run := by
  unfold byteAddress
  rw [box_runAt hbase]
  rfl

/-- The digits of byte `b` of run `x` in block `y`. -/
theorem box_digits {n x y b : Nat} (hb : b < run) (hx : x < n) :
    ((y * n + x) * run + b) / run % n = x ∧ ((y * n + x) * run + b) / run / n = y ∧
      ((y * n + x) * run + b) % run = b := by
  have hrun : 0 < run := by omega
  have hn : 0 < n := by omega
  rw [Nat.mul_comm _ run, Nat.mul_add_div hrun, Nat.div_eq_of_lt hb, Nat.mul_add_mod,
    Nat.mod_eq_of_lt hb, Nat.add_zero, Nat.mul_comm y, Nat.mul_add_mod, Nat.mod_eq_of_lt hx,
    Nat.mul_add_div hn, Nat.div_eq_of_lt hx, Nat.add_zero]
  exact ⟨rfl, rfl, rfl⟩

theorem box_byteAddress_at (hbase : base < 0x8000000000000000) {x y b : Nat} (hb : b < run)
    (hx : x < max m 1) :
    (box run m ms o os).byteAddress base ((y * max m 1 + x) * run + b) =
      base + x * ms + y * os + b := by
  obtain ⟨hmod, hdiv, hrest⟩ := box_digits (y := y) hb hx
  rw [box_byteAddress hbase, hmod, hdiv, hrest]

/-- Skipping whole blocks is starting further on. -/
theorem box_byteAddress_skip (hrun : 0 < run) {first : Nat}
    (hbase : base + first * os < 0x8000000000000000) (n p : Nat) :
    (box run m ms n os).byteAddress (base + first * os) p =
      (box run m ms o os).byteAddress base (first * (run * max m 1) + p) := by
  have hm : 0 < max m 1 := by omega
  have hsplit : first * (run * max m 1) + p = run * (max m 1 * first) + p := by
    rw [Nat.mul_comm first, Nat.mul_assoc]
  rw [box_byteAddress hbase, box_byteAddress (by omega), hsplit, Nat.mul_add_div hrun,
    Nat.mul_add_mod, Nat.mul_add_mod, Nat.mul_add_div hm, Nat.add_mul]
  omega

theorem box_addressed (h : base + m * ms + o * os + run < 0x8000000000000000) :
    (box run m ms o os).Addressed base := by
  intro j hj
  obtain ⟨hm, ho⟩ := box_steps run m ms o os
  rw [runs, hm, ho] at hj
  rw [hm]
  have hx := Nat.mod_lt j (show 0 < max m 1 by omega)
  have hy := Nat.div_lt_of_lt_mul hj
  have hxs := Nat.mul_le_mul_right ms (show j % max m 1 ≤ m by omega)
  have hys := Nat.mul_le_mul_right os (show j / max m 1 ≤ o by omega)
  refine ⟨base + (j % max m 1 * ms + j / max m 1 * os), ?_, .inr ?_⟩
  · simp only [address, box]
    rw [Signed.mul_of_lt (by omega), Checked.ok_bind, Signed.mul_of_lt (by omega),
      Checked.ok_bind, Signed.add_of_lt (by omega), Checked.ok_bind, signed_of_lt (by omega),
      Signed.add_of_lt (by omega), Checked.ok_bind, unsigned_natCast]
    rfl
  · simp only [box, wordLimit]
    omega

end Shape

theorem Endpoint.displace_of_lt {e : Endpoint} {n : Nat} (h : e.addr + n < 0x8000000000000000) :
    e.displace (n : Int) = .ok ⟨e.tier, e.addr + n⟩ := by
  unfold Endpoint.displace
  rw [signed_of_lt (by omega), Signed.add_of_lt h, Checked.ok_bind, unsigned_natCast]
  rfl

namespace Descriptor

/-- A transfer moves `d'.byteCount` of the bytes of another, from byte `first` on. -/
structure Part (d' d : Descriptor) (first : Nat) : Prop where
  payload : d'.payload = d.payload
  direction : d'.direction = d.direction
  within : first + d'.byteCount ≤ d.byteCount
  source : ∀ p < d'.byteCount, d'.source p = d.source (first + p)
  target : ∀ p < d'.byteCount, d'.target p = d.target (first + p)

theorem part_self (d : Descriptor) : d.Part d 0 :=
  ⟨rfl, rfl, by omega, fun p _ => by rw [Nat.zero_add], fun p _ => by rw [Nat.zero_add]⟩

/-- A transfer over a box that lies below the middle of the address space. -/
structure Boxed (d : Descriptor) (run m ms o os : Nat) : Prop where
  shape : d.shape = .box run m ms o os
  run_pos : 0 < run
  ext_lt : d.ext.addr + m * ms + max o 1 * os + run < 0x8000000000000000
  local_lt : d.loc.addr + d.byteCount < 0x8000000000000000

variable {d : Descriptor} {run m ms o os : Nat}

theorem Boxed.byteCount_eq (h : d.Boxed run m ms o os) :
    d.byteCount = run * (max m 1 * max o 1) := by
  rw [byteCount, h.shape, Shape.box_byteCount]

theorem Boxed.fits (h : d.Boxed run m ms o os) : d.Fits := by
  have hext := h.ext_lt
  have hlocal := h.local_lt
  refine ⟨⟨?_, .inr ?_⟩, ?_⟩
  · have hrows := Nat.mul_le_mul_right os (Nat.le_max_left o 1)
    rw [h.shape]
    exact Shape.box_addressed (by omega)
  · simp only [wordLimit]
    omega
  · unfold maxBuffer
    omega

theorem Boxed.bytes_pos (h : d.Boxed run m ms o os) : 0 < d.byteCount := by
  rw [h.byteCount_eq]
  exact Nat.mul_pos h.run_pos (Nat.mul_pos (by omega) (by omega))

def IsBox (d : Descriptor) : Prop := ∃ run m ms o os, d.Boxed run m ms o os

theorem IsBox.fits (h : d.IsBox) : d.Fits := by
  obtain ⟨_, _, _, _, _, hboxed⟩ := h
  exact hboxed.fits

theorem IsBox.bytes_pos (h : d.IsBox) : 0 < d.byteCount := by
  obtain ⟨_, _, _, _, _, hboxed⟩ := h
  exact hboxed.bytes_pos

/-- The share of unit `part` of `parts`, a contiguous chunk of the outer blocks. -/
def share (d : Descriptor) (part parts : Nat) : Option Descriptor :=
  let chunk := blocks d.shape.outer.steps parts
  if d.shape.outer.steps ≤ part * chunk then none
  else some { d with
    ext := { d.ext with addr := d.ext.addr + part * chunk * d.shape.outer.stride.toNat }
    loc := { d.loc with addr := d.loc.addr + part * chunk * d.shape.blockBytes }
    shape := d.shape.withBlocks (min chunk (d.shape.outer.steps - part * chunk)) }

theorem Boxed.split_eq (h : d.Boxed run m ms o os) {part parts : Nat} (ho : o < 0x1000000)
    (hparts : parts < wordLimit) (hpart : part < parts) :
    d.split part parts = .ok (d.share part parts) := by
  have hsteps : d.shape.outer.steps = max o 1 := by rw [h.shape, (Shape.box_steps ..).2]
  have hmiddle : d.shape.middle.steps = max m 1 := by rw [h.shape, (Shape.box_steps ..).1]
  have hstride : d.shape.outer.stride = (os : Int) := by rw [h.shape]; rfl
  have hblock : d.shape.blockBytes = run * max m 1 := by
    rw [Shape.blockBytes, hmiddle, h.shape]
    rfl
  have hmax : max parts 1 = parts := by omega
  have hext := h.ext_lt
  have hlocal := h.local_lt
  rw [h.byteCount_eq, ← Nat.mul_assoc] at hlocal
  simp only [split, share, hsteps, hmax, hstride, hblock, Int.toNat_natCast]
  have hchunk : (max o 1 + parts - 1) / parts = blocks (max o 1) parts := rfl
  rw [hchunk, mul_of_lt (mul_blocks_lt_wordLimit (by omega) hparts hpart), Checked.ok_bind]
  by_cases hnone : max o 1 ≤ part * blocks (max o 1) parts
  · rw [if_pos hnone, if_pos hnone]
    rfl
  · have hrows := Nat.mul_le_mul_right os (show part * blocks (max o 1) parts ≤ max o 1 by omega)
    have hbytes := Nat.mul_le_mul_right (run * max m 1)
      (show part * blocks (max o 1) parts ≤ max o 1 by omega)
    rw [Nat.mul_comm (max o 1)] at hbytes
    have hunit : run * max m 1 ≤ run * max m 1 * max o 1 :=
      Nat.le_mul_of_pos_right _ (by omega)
    rw [if_neg hnone, if_neg hnone, Signed.mul_of_lt (by omega), Checked.ok_bind,
      signed_of_lt (by omega), Signed.mul_of_lt (by omega), Checked.ok_bind]
    rw [Endpoint.displace_of_lt (by omega), Checked.ok_bind, Endpoint.displace_of_lt (by omega)]
    rfl

def shareBlocks (n part parts : Nat) : Nat := min (blocks n parts) (n - part * blocks n parts)

/-- A share is a part of its transfer, and a box again. -/
theorem Boxed.share_part (h : d.Boxed run m ms o os) {part parts : Nat} (hpart : part < parts)
    {d' : Descriptor} (hshare : d.share part parts = some d') :
    d'.Boxed run m ms (shareBlocks (max o 1) part parts) os ∧
      0 < shareBlocks (max o 1) part parts ∧
      d'.Part d (part * blocks (max o 1) parts * (run * max m 1)) := by
  have hsteps : d.shape.outer.steps = max o 1 := by rw [h.shape, (Shape.box_steps ..).2]
  have hmiddle : d.shape.middle.steps = max m 1 := by rw [h.shape, (Shape.box_steps ..).1]
  have hstride : d.shape.outer.stride = (os : Int) := by rw [h.shape]; rfl
  have hblock : d.shape.blockBytes = run * max m 1 := by
    rw [Shape.blockBytes, hmiddle, h.shape]
    rfl
  have hchunk : 0 < blocks (max o 1) parts := blocks_pos (by omega) (by omega)
  simp only [share, hsteps, hstride, hblock, Int.toNat_natCast] at hshare
  unfold shareBlocks
  generalize part * blocks (max o 1) parts = first at hshare ⊢
  by_cases hnone : max o 1 ≤ first
  · rw [if_pos hnone] at hshare
    cases hshare
  rw [if_neg hnone] at hshare
  generalize hcount : min (blocks (max o 1) parts) (max o 1 - first) = count at hshare ⊢
  cases hshare
  have hpos : 0 < count := by omega
  have hext := h.ext_lt
  have hlocal := h.local_lt
  have htotal := h.byteCount_eq
  have hrows := Nat.mul_le_mul_right os (show first + count ≤ max o 1 by omega)
  have hbytes := Nat.mul_le_mul_right (run * max m 1) (show first + count ≤ max o 1 by omega)
  rw [Nat.add_mul] at hrows hbytes
  have hwhole : d.byteCount = max o 1 * (run * max m 1) := by
    rw [htotal, ← Nat.mul_assoc, Nat.mul_comm]
  have hshape : d.shape.withBlocks count = .box run m ms count os := by
    rw [h.shape]
    rfl
  have hshareBytes : (Shape.box run m ms count os).byteCount = count * (run * max m 1) := by
    rw [Shape.box_byteCount, show max count 1 = count by omega, ← Nat.mul_assoc, Nat.mul_comm]
  have hskip : ∀ p, (d.shape.withBlocks count).byteAddress (d.ext.addr + first * os) p =
      d.shape.byteAddress d.ext.addr (first * (run * max m 1) + p) := by
    intro p
    rw [hshape, h.shape]
    exact Shape.box_byteAddress_skip h.run_pos (by omega) count p
  refine ⟨⟨hshape, h.run_pos, ?_, ?_⟩, hpos, ⟨rfl, rfl, ?_, ?_, ?_⟩⟩
  · show d.ext.addr + first * os + m * ms + max count 1 * os + run < _
    rw [show max count 1 = count by omega]
    omega
  · show d.loc.addr + first * (run * max m 1) + (d.shape.withBlocks count).byteCount < _
    rw [hshape, hshareBytes]
    omega
  · show first * (run * max m 1) + (d.shape.withBlocks count).byteCount ≤ d.byteCount
    rw [hshape, hshareBytes]
    omega
  · intro p _
    simp only [source]
    cases d.direction with
    | gather => simp only [hskip]
    | scatter => simp only [Nat.add_assoc]
  · intro p _
    simp only [target]
    cases d.direction with
    | gather => simp only [Nat.add_assoc]
    | scatter => simp only [hskip]

/-- Every byte of a transfer is in some share. -/
theorem Boxed.exists_share (h : d.Boxed run m ms o os) {parts p : Nat} (hparts : 0 < parts)
    (hp : p < d.byteCount) :
    ∃ part < parts, ∃ d' first q, d.share part parts = some d' ∧ d'.Part d first ∧
      q < d'.byteCount ∧ p = first + q := by
  have hunit : 0 < run * max m 1 := Nat.mul_pos h.run_pos (by omega)
  have hchunk : 0 < blocks (max o 1) parts := blocks_pos hparts (by omega)
  have hwhole : d.byteCount = run * max m 1 * max o 1 := by
    rw [h.byteCount_eq, Nat.mul_assoc]
  rw [hwhole] at hp
  have hy : p / (run * max m 1) < max o 1 := Nat.div_lt_of_lt_mul hp
  obtain ⟨y, hyp⟩ : ∃ y, y = p / (run * max m 1) := ⟨_, rfl⟩
  rw [← hyp] at hy
  have hrest := Nat.div_add_mod p (run * max m 1)
  have hlt := Nat.mod_lt p hunit
  rw [← hyp, Nat.mul_comm] at hrest
  -- the unit that owns block `y`
  obtain ⟨part, hpart⟩ : ∃ part, part = y / blocks (max o 1) parts := ⟨_, rfl⟩
  have hin := Nat.div_add_mod y (blocks (max o 1) parts)
  have hmod := Nat.mod_lt y hchunk
  rw [← hpart, Nat.mul_comm] at hin
  have hpartlt : part < parts := by
    have hcover : max o 1 ≤ blocks (max o 1) parts * parts := le_blocks_mul hparts
    rw [hpart]
    exact Nat.div_lt_of_lt_mul (Nat.lt_of_lt_of_le hy hcover)
  have hsome : ∃ d', d.share part parts = some d' := by
    have hsteps : d.shape.outer.steps = max o 1 := by rw [h.shape, (Shape.box_steps ..).2]
    simp only [share, hsteps]
    rw [if_neg (by omega)]
    exact ⟨_, rfl⟩
  obtain ⟨d', hshare⟩ := hsome
  obtain ⟨hboxed, hpos, hpartOf⟩ := h.share_part hpartlt hshare
  have hbytes : d'.byteCount = shareBlocks (max o 1) part parts * (run * max m 1) := by
    rw [hboxed.byteCount_eq,
      show max (shareBlocks (max o 1) part parts) 1 = shareBlocks (max o 1) part parts by omega,
      ← Nat.mul_assoc, Nat.mul_comm]
  have hfirst := Nat.mul_le_mul_right (run * max m 1)
    (show part * blocks (max o 1) parts ≤ y by omega)
  have hlast := Nat.mul_le_mul_right (run * max m 1)
    (show y + 1 ≤ part * blocks (max o 1) parts + shareBlocks (max o 1) part parts by
      unfold shareBlocks
      omega)
  rw [Nat.add_mul, Nat.add_mul] at hlast
  refine ⟨part, hpartlt, d', _, p - part * blocks (max o 1) parts * (run * max m 1), hshare,
    hpartOf, ?_, ?_⟩
  · rw [hbytes]
    omega
  · omega

end Descriptor

end TileStream
