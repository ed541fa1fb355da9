import Mathlib.Logic.Function.Basic
import Mathlib.Tactic.Common
import TileStream.Memory.System
import TileStream.Proofs.Checked

/-! # Memory as a map from endpoints to bytes

`Memory.image` forgets how the bytes of a memory are stored. `Image.spread`
writes a sequence of bytes one after the other, each at its own endpoint; what
it leaves at an endpoint is the last byte written there (`spread_of_last`), or
the old one where none was written (`spread_of_untouched`). -/
namespace TileStream

/-- The bytes of every tier. -/
abbrev Image := Endpoint → UInt8

namespace Image

/-- Write `count` bytes in order, byte `p` at `target p`. -/
def spread (img : Image) (count : Nat) (target : Nat → Endpoint) (value : Nat → UInt8) : Image :=
  (List.range count).foldl (fun acc p => Function.update acc (target p) (value p)) img

theorem spread_succ (img : Image) (count : Nat) (target : Nat → Endpoint) (value : Nat → UInt8) :
    img.spread (count + 1) target value =
      Function.update (img.spread count target value) (target count) (value count) := by
  simp [spread, List.range_succ]

theorem spread_of_untouched {img : Image} {count : Nat} {target : Nat → Endpoint}
    {value : Nat → UInt8} {e : Endpoint} (h : ∀ p < count, target p ≠ e) :
    img.spread count target value e = img e := by
  induction count with
  | zero => rfl
  | succ count ih =>
    rw [spread_succ, Function.update_of_ne (Ne.symm (h count (Nat.lt_succ_self _))),
      ih fun p hp => h p (Nat.lt_succ_of_lt hp)]

/-- The byte at an endpoint is the last one that was written there. -/
theorem spread_of_last {img : Image} {count : Nat} {target : Nat → Endpoint}
    {value : Nat → UInt8} {p : Nat} (hp : p < count)
    (hlast : ∀ q, p < q → q < count → target q ≠ target p) :
    img.spread count target value (target p) = value p := by
  induction count with
  | zero => omega
  | succ count ih =>
    rw [spread_succ]
    by_cases heq : p = count
    · rw [heq, Function.update_self]
    · rw [Function.update_of_ne (Ne.symm (hlast count (by omega) (by omega))),
        ih (by omega) fun q hq hlt => hlast q hq (by omega)]

/-- What every value for a byte satisfies holds of the byte, if it held before or the byte is written. -/
theorem spread_settles {img : Image} {count : Nat} {target : Nat → Endpoint}
    {value : Nat → UInt8} {e : Endpoint} {R : UInt8 → Prop}
    (hsome : R (img e) ∨ ∃ p < count, target p = e)
    (hall : ∀ p < count, target p = e → R (value p)) : R (img.spread count target value e) := by
  induction count with
  | zero =>
    rcases hsome with hinit | ⟨p, hp, -⟩
    · exact hinit
    · omega
  | succ count ih =>
    rw [spread_succ]
    by_cases heq : target count = e
    · rw [← heq, Function.update_self]
      exact hall count (Nat.lt_succ_self _) heq
    · rw [Function.update_of_ne (Ne.symm heq)]
      refine ih (hsome.imp_right ?_) fun q hq => hall q (Nat.lt_succ_of_lt hq)
      rintro ⟨p, hp, htarget⟩
      rcases Nat.lt_succ_iff_lt_or_eq.mp hp with hlt | rfl
      · exact ⟨p, hlt, htarget⟩
      · exact absurd htarget heq

/-- Writing over images that agree on a byte leaves them in agreement on it. -/
theorem spread_same {img img' : Image} {count : Nat} {target : Nat → Endpoint}
    {value : Nat → UInt8} {e : Endpoint} (h : img' e = img e) :
    img'.spread count target value e = img.spread count target value e := by
  induction count with
  | zero => exact h
  | succ count ih =>
    rw [spread_succ, spread_succ]
    by_cases heq : e = target count
    · rw [heq, Function.update_self, Function.update_self]
    · rw [Function.update_of_ne heq, Function.update_of_ne heq, ih]

/-- Writing goes on where it stopped. -/
theorem spread_add (img : Image) (first more : Nat) (target : Nat → Endpoint)
    (value : Nat → UInt8) :
    img.spread (first + more) target value =
      (img.spread first target value).spread more (fun p => target (first + p))
        (fun p => value (first + p)) := by
  induction more with
  | zero => rfl
  | succ more ih => rw [← Nat.add_assoc, spread_succ, spread_succ, ih]

theorem spread_congr {img : Image} {count : Nat} {target target' : Nat → Endpoint}
    {value value' : Nat → UInt8} (ht : ∀ p < count, target p = target' p)
    (hv : ∀ p < count, value p = value' p) :
    img.spread count target value = img.spread count target' value' := by
  induction count with
  | zero => rfl
  | succ count ih =>
    rw [spread_succ, spread_succ, ht count (Nat.lt_succ_self _), hv count (Nat.lt_succ_self _),
      ih (fun p hp => ht p (Nat.lt_succ_of_lt hp)) (fun p hp => hv p (Nat.lt_succ_of_lt hp))]

/-- Bytes written at consecutive addresses. -/
theorem spread_consecutive (img : Image) (count : Nat) (t : Tier) (addr : Nat)
    (value : Nat → UInt8) (e : Endpoint) :
    img.spread count (fun p => ⟨t, addr + p⟩) value e =
      if e.tier = t ∧ addr ≤ e.addr ∧ e.addr < addr + count then value (e.addr - addr)
      else img e := by
  by_cases h : e.tier = t ∧ addr ≤ e.addr ∧ e.addr < addr + count
  · obtain ⟨ht, hlo, hhi⟩ := h
    have he : e = ⟨t, addr + (e.addr - addr)⟩ := by
      rw [Nat.add_sub_cancel' hlo, ← ht]
    rw [if_pos ⟨ht, hlo, hhi⟩]
    conv_lhs => rw [he]
    have hlast : ∀ q, e.addr - addr < q → q < count →
        (⟨t, addr + q⟩ : Endpoint) ≠ ⟨t, addr + (e.addr - addr)⟩ := by
      intro q hq _ heq
      simp only [Endpoint.mk.injEq, true_and] at heq
      omega
    exact spread_of_last (by omega) hlast
  · rw [if_neg h]
    apply spread_of_untouched
    rintro p hp rfl
    exact h ⟨rfl, Nat.le_add_right _ _, Nat.add_lt_add_left hp _⟩

end Image

/-! ## Banks and memories -/

def Memory.image (m : Memory) : Image := fun e => m.byteAt e.tier e.addr

/-- The bytes that transfers have read from a tier. -/
def Memory.readCount (m : Memory) (t : Tier) : Nat := (m.bank t).bytesRead

/-- An access of `len` bytes at `addr` stays below the last address. -/
def AccessFits (addr len : Nat) : Prop := len = 0 ∨ addr + len < wordLimit

/-- The bytes of a bank in its tier, and those of an image everywhere else. -/
def Bank.over (b : Bank) (t : Tier) (img : Image) : Image := fun e =>
  if e.tier = t then b.byteAt e.addr else img e

theorem Memory.image_withBank (m : Memory) (t : Tier) (b : Bank) :
    (m.withBank t b).image = b.over t m.image := by
  funext e
  simp only [Memory.image, Memory.byteAt, Memory.bank_withBank, Bank.over]
  split <;> rfl

theorem Memory.over_bank (m : Memory) (t : Tier) : (m.bank t).over t m.image = m.image := by
  funext e
  unfold Bank.over
  split
  · rename_i ht; rw [← ht]; rfl
  · rfl

theorem Memory.readCount_withBank (m : Memory) (t u : Tier) (b : Bank) :
    (m.withBank t b).readCount u = if u = t then b.bytesRead else m.readCount u := by
  simp only [Memory.readCount, Memory.bank_withBank]
  split <;> rfl

/-- A bank that keeps the bytes of its tier keeps the image. -/
theorem Memory.image_withBank_of_pages {m : Memory} {t : Tier} {b : Bank}
    (h : b.pages = (m.bank t).pages) : (m.withBank t b).image = m.image := by
  rw [Memory.image_withBank]
  conv_rhs => rw [← m.over_bank t]
  funext e
  simp only [Bank.over, Bank.byteAt, h]

theorem Memory.readCount_withBank_of_eq {m : Memory} {t : Tier} {b : Bank}
    (h : b.bytesRead = (m.bank t).bytesRead) : (m.withBank t b).readCount = m.readCount := by
  funext u
  rw [Memory.readCount_withBank]
  split
  · rename_i hu; rw [h, hu]; rfl
  · rfl

/-- A write that fits stores its bytes in order and touches no read counter. -/
theorem Bank.write_over (b : Bank) {addr : Nat} {data : List UInt8}
    (h : AccessFits addr data.length) (t : Tier) (img : Image) :
    ∃ b', Bank.write addr data b = .ok () b' ∧
      b'.over t img = (b.over t img).spread data.length (fun p => ⟨t, addr + p⟩)
        (fun p => data.getD p 0) ∧
      b'.bytesRead = b.bytesRead := by
  have hfits : data = [] ∨ addr + data.length < wordLimit :=
    h.imp_left List.length_eq_zero_iff.mp
  have hok := Bank.write_eq_ok (b := b) hfits
  refine ⟨_, hok, ?_, rfl⟩
  funext e
  have hbyte := Bank.byteAt_of_write hfits hok e.addr
  rw [Image.spread_consecutive, Bank.over, hbyte]
  by_cases ht : e.tier = t
  · have hold : b.over t img e = b.byteAt e.addr := if_pos ht
    rw [if_pos ht, hold]
    by_cases hlo : addr ≤ e.addr
    · by_cases hhi : e.addr < addr + data.length
      · rw [if_pos hlo, if_pos ⟨ht, hlo, hhi⟩, List.getD_eq_getElem?_getD,
          List.getElem?_eq_getElem (by omega)]
        rfl
      · rw [if_pos hlo, if_neg (by omega), List.getElem?_eq_none (by omega)]
        rfl
    · rw [if_neg hlo, if_neg (by omega)]
  · rw [if_neg ht, if_neg (by tauto), Bank.over, if_neg ht]

/-- What a computation on one bank does to the whole memory. -/
theorem Memory.onBank_over {m : Memory} {t : Tier} {x : Stateful Bank Unit} {b : Bank}
    (h : x (m.bank t) = .ok () b) : Memory.onBank t x m = .ok () (m.withBank t b) := by
  rw [Memory.onBank_apply, h]

/-- A finished computation on one bank leaves the other banks alone. -/
theorem Memory.onBank_inv {α : Type} {m m' : Memory} {t : Tier} {x : Stateful Bank α} {a : α}
    (h : Memory.onBank t x m = .ok a m') : ∃ b, x (m.bank t) = .ok a b ∧ m' = m.withBank t b := by
  rw [Memory.onBank_apply] at h
  cases hx : x (m.bank t) with
  | error f b => rw [hx] at h; cases h
  | ok c b =>
    rw [hx] at h
    cases h
    exact ⟨b, rfl, rfl⟩

def Image.range (img : Image) (t : Tier) (addr len : Nat) : List UInt8 :=
  (List.range len).map fun p => img ⟨t, addr + p⟩

theorem Pages.toList_read (m : Memory) (t : Tier) (addr len : Nat) :
    ((m.bank t).pages.read addr len).toList = m.image.range t addr len := by
  apply List.ext_getElem (by simp [Image.range])
  intro i hi hi'
  simp only [Array.getElem_toList, Pages.getElem_read, Image.range, List.getElem_map,
    List.getElem_range]
  rfl

/-- A read that fits yields the bytes of its range. -/
theorem Memory.look_read_exists {addr len : Nat} (h : AccessFits addr len)
    (hbuffer : len ≤ maxBuffer) (m : Memory) (t : Tier) :
    ∃ bytes, Memory.look t (·.read addr len) m = .ok bytes m ∧
      bytes.toList = m.image.range t addr len := by
  refine ⟨(m.bank t).pages.read addr len, ?_, Pages.toList_read m t addr len⟩
  have hcheck : checkBuffer len = .ok () := if_neg (Nat.not_lt_of_le hbuffer)
  simp only [Memory.look, Bank.read, hcheck, Checked.ok_bind,
    Bank.readInto_eq_ok_iff.mpr ⟨h, rfl⟩]

theorem Memory.look_inv {α : Type} {t : Tier} {f : Bank → Checked α} {m m' : Memory} {a : α}
    (h : Memory.look t f m = .ok a m') : f (m.bank t) = .ok a ∧ m' = m := by
  unfold Memory.look at h
  cases hf : f (m.bank t) with
  | error e => rw [hf] at h; cases h
  | ok found =>
    rw [hf] at h
    cases h
    exact ⟨rfl, rfl⟩

theorem Memory.look_read_inv {t : Tier} {addr len : Nat} {m m' : Memory} {bytes : Array UInt8}
    (h : Memory.look t (·.read addr len) m = .ok bytes m') :
    m' = m ∧ bytes.toList = m.image.range t addr len := by
  obtain ⟨hread, rfl⟩ := Memory.look_inv h
  obtain ⟨_, -, hinto⟩ := Checked.bind_eq_ok.mp hread
  obtain ⟨-, rfl⟩ := Bank.readInto_eq_ok_iff.mp hinto
  exact ⟨rfl, Pages.toList_read m' t addr len⟩

def Image.store (img : Image) (t : Tier) (addr : Nat) (data : List UInt8) : Image :=
  img.spread data.length (fun p => ⟨t, addr + p⟩) fun p => data.getD p 0

theorem Memory.onBank_write_exists {addr : Nat} {data : List UInt8}
    (h : AccessFits addr data.length) (m : Memory) (t : Tier) :
    ∃ m', Memory.onBank t (Bank.write addr data) m = .ok () m' := by
  obtain ⟨b, hwrite, -, -⟩ := Bank.write_over (m.bank t) h t m.image
  exact ⟨_, Memory.onBank_over hwrite⟩

/-- Bytes that have been written end below the last address. -/
theorem Memory.onBank_write_fits {t : Tier} {addr : Nat} {data : List UInt8} {m m' : Memory}
    (h : Memory.onBank t (Bank.write addr data) m = .ok () m') : AccessFits addr data.length := by
  by_contra hfits
  have hend : reachesEnd addr data.length = true := by
    rw [← Bool.not_eq_false, Bank.not_reachesEnd_iff]
    exact hfits
  rw [Memory.onBank_apply, Bank.write, if_pos hend] at h
  cases h

theorem Memory.onBank_write_inv {t : Tier} {addr : Nat} {data : List UInt8} {m m' : Memory}
    (h : Memory.onBank t (Bank.write addr data) m = .ok () m') :
    m'.image = m.image.store t addr data ∧ m'.readCount = m.readCount := by
  obtain ⟨b, hwrite, hover, hkeep⟩ := Bank.write_over (m.bank t) (Memory.onBank_write_fits h) t m.image
  rw [Memory.onBank_over hwrite] at h
  cases h
  rw [Memory.image_withBank, hover, Memory.over_bank]
  exact ⟨rfl, Memory.readCount_withBank_of_eq hkeep⟩

/-- Counting a read adds to the counter of its tier and changes no byte. -/
theorem Memory.onBank_countRead {m : Memory} {t : Tier} (addr : Nat) {len : Nat}
    (h : m.readCount t + len < wordLimit) :
    ∃ m', Memory.onBank t (Bank.countRead addr len) m = .ok () m' ∧ m'.image = m.image ∧
      ∀ u, m'.readCount u = m.readCount u + if u = t then len else 0 := by
  have hadd : Unsigned.add (m.bank t).bytesRead len = .ok ((m.bank t).bytesRead + len) :=
    Unsigned.add_eq_ok_iff.mpr ⟨h, rfl⟩
  refine ⟨m.withBank t { m.bank t with
    bytesRead := (m.bank t).bytesRead + len
    regions := Region.touchFirst Region.countRead addr len (m.bank t).regions }, ?_,
    image_withBank_of_pages rfl, ?_⟩
  · rw [Memory.onBank_apply, Bank.countRead, hadd]
  · intro u
    rw [Memory.readCount_withBank]
    by_cases hu : u = t
    · rw [if_pos hu, if_pos hu, hu]; rfl
    · rw [if_neg hu, if_neg hu, Nat.add_zero]

theorem Memory.onBank_countRead_error {m : Memory} {t : Tier} (addr : Nat) {len : Nat}
    (h : ¬ m.readCount t + len < wordLimit) :
    ∃ m', Memory.onBank t (Bank.countRead addr len) m = .error .addOverflow m' := by
  have hadd : Unsigned.add (m.bank t).bytesRead len = .error .addOverflow := if_neg h
  exact ⟨_, by rw [Memory.onBank_apply, Bank.countRead, hadd]⟩

theorem Memory.update_countWrite (m : Memory) (t : Tier) (addr len : Nat) :
    ∃ m', Memory.update t (Bank.countWrite · addr len) m = .ok () m' ∧ m'.image = m.image ∧
      m'.readCount = m.readCount :=
  ⟨m.withBank t ((m.bank t).countWrite addr len), Memory.onBank_apply t _ m,
    image_withBank_of_pages rfl, readCount_withBank_of_eq rfl⟩

end TileStream
