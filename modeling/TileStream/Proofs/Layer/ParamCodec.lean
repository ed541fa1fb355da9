import TileStream.Layer.Params

/-! # The codec of parameter blocks

Thirteen words describe a block (`SpeltBy`), and two readers accept them: one takes
words, the other bytes. Only the first thirteen words decide what a reader answers. Of
all they hold one thing is lost: which number stood for a flag that is set. `canonical`
is what writing gives back, and reading that once more changes nothing. -/
namespace TileStream

namespace LittleEndian

/-- The words of a list of bytes: there is one for every four bytes, and word `i` is
the number that the bytes from `4 * i` on spell, the least significant one first. -/
structure Spells (b : List UInt8) (w : List UInt32) : Prop where
  length_eq : b.length = 4 * w.length
  toNat_eq : ∀ i (hi : i < w.length), w[i].toNat =
    (b.getD (4 * i) 0).toNat + 0x100 * (b.getD (4 * i + 1) 0).toNat +
      0x10000 * (b.getD (4 * i + 2) 0).toNat + 0x1000000 * (b.getD (4 * i + 3) 0).toNat

theorem spells_words {b : List UInt8} (h : b.length % 4 = 0) : Spells b (words b) := by
  constructor
  · rw [length_words]
    omega
  · intro i hi
    have hroom : 4 * i + 3 < b.length := by
      rw [length_words] at hi
      omega
    have hget := getElem?_words b hroom
    rw [List.getElem?_eq_getElem hi] at hget
    rw [Option.some.inj hget, toNat_word]

theorem length_flatMap_bytes (w : List UInt32) : (w.flatMap bytes).length = 4 * w.length := by
  induction w with
  | nil => rfl
  | cons word w ih => simp [ih, Nat.mul_add, Nat.add_comm]

end LittleEndian

namespace Params

open LittleEndian

/-- What is written of the words that a block was read from: the first thirteen, with
one for every number that stands for a flag that is set. -/
def canonical (w : List UInt32) : List UInt32 :=
  (w.take wordCount).modify 8 fun flag => if flag = 0 then 0 else 1

variable {w : List UInt32} {b : List UInt8} {p : Params}

/-! ## Thirteen words -/

theorem ofWords_block (v : Vector UInt32 wordCount) (rest : List UInt32) :
    ofWords (v.toList ++ rest) =
      if (32 : UInt32) ≤ v[12] then .error (.shiftOutOfRange v[12]) else .ok (ofFields v) := by
  obtain ⟨⟨fields⟩, hfields⟩ := v
  match fields, hfields with
  | [w0, w1, w2, w3, w4, w5, w6, w7, w8, w9, w10, w11, w12], _ => rfl

theorem toWords_ofFields (v : Vector UInt32 wordCount) :
    (ofFields v).toWords = canonical v.toList := by
  have hflag (flag : UInt32) :
      (if (flag != 0) = true then 1 else 0 : UInt32) = if flag = 0 then 0 else 1 := by
    by_cases hzero : flag = 0 <;> simp [hzero]
  obtain ⟨⟨fields⟩, hfields⟩ := v
  match fields, hfields with
  | [w0, w1, w2, w3, w4, w5, w6, w7, w8, w9, w10, w11, w12], _ =>
    exact congrArg (fun flag => [w0, w1, w2, w3, w4, w5, w6, w7, flag, w9, w10, w11, w12]) (hflag w8)

theorem ofFields_toWords (p : Params) : ofFields ⟨p.toWords.toArray, rfl⟩ = p := by
  obtain ⟨_, _, _, _, _, _, _, _, flag, _, _, _, _⟩ := p
  cases flag <;> rfl

/-! ## Reading words -/

theorem ofWords_short (h : w.length < wordCount) :
    ofWords w = .error (.tooShort wordCount w.length) := by
  unfold ofWords
  split
  · simp +arith [wordCount] at h
  · rfl

/-- Enough words describe one block, whatever follows them, and only its shift can be refused. The facts
below about enough words are read off this one. -/
theorem ofWords_long (h : 13 ≤ w.length) :
    ∃ p, p.toWords = canonical w ∧ p.outShift = w[12] ∧ ∀ rest, ofWords (w ++ rest) =
      if (32 : UInt32) ≤ w[12] then .error (.shiftOutOfRange w[12]) else .ok p := by
  let v : Vector UInt32 wordCount := ⟨(w.take wordCount).toArray, by simp [wordCount, h]⟩
  have hshift : v[12] = w[12] := List.getElem_take
  have hcanonical : canonical v.toList = canonical w := by
    show ((w.take wordCount).take wordCount).modify 8 _ = _
    rw [List.take_take, Nat.min_self, canonical]
  refine ⟨ofFields v, (toWords_ofFields v).trans hcanonical, hshift, fun rest => ?_⟩
  -- the reader matches on the thirteen words, so they come first, as a block
  have hsplit : w ++ rest = v.toList ++ (w.drop wordCount ++ rest) := by
    show _ = w.take wordCount ++ _
    rw [← List.append_assoc, List.take_append_drop]
  rw [hsplit, ofWords_block, hshift]

theorem ofWords_append (h : 13 ≤ w.length) (rest : List UInt32) :
    ofWords (w ++ rest) = ofWords w := by
  obtain ⟨p, -, -, hread⟩ := ofWords_long h
  have hall := hread []
  rw [List.append_nil] at hall
  rw [hread rest, hall]

theorem ofWords_overshift (h : 13 ≤ w.length) (hshift : (32 : UInt32) ≤ w[12]) :
    ofWords w = .error (.shiftOutOfRange w[12]) := by
  obtain ⟨p, -, -, hread⟩ := ofWords_long h
  rw [← ofWords_append h [], hread, if_pos hshift]

theorem ofWords_exists (h : 13 ≤ w.length) (hshift : w[12] < 32) : ∃ p, ofWords w = .ok p := by
  obtain ⟨p, -, -, hread⟩ := ofWords_long h
  exact ⟨p, by rw [← ofWords_append h [], hread, if_neg (UInt32.not_le.mpr hshift)]⟩

/-- What a block that was read from words says about them. -/
theorem ofWords_inv (h : ofWords w = .ok p) :
    p.toWords = canonical w ∧ p.outShift < 32 ∧ ∃ hlong : 13 ≤ w.length, p.outShift = w[12] := by
  rcases Nat.lt_or_ge w.length 13 with hshort | hlong
  · rw [ofWords_short hshort] at h
    cases h
  · obtain ⟨q, hwritten, hlast, hread⟩ := ofWords_long hlong
    rw [← ofWords_append hlong [], hread] at h
    split at h
    · cases h
    · rename_i hshift
      cases h
      exact ⟨hwritten, hlast ▸ UInt32.not_le.mp hshift, hlong, hlast⟩

/-- The words of a block stand in this order: the addresses in the slow tier, those in the mid tier, the
base of the scratchpad, the flag, the multipliers and the shift. -/
structure SpeltBy (p : Params) (w : List UInt32) : Prop where
  slowInput : w[0]? = some p.slowInput
  slowOutput : w[1]? = some p.slowOutput
  slowWeights : w[2]? = some p.slowWeights
  midInput : w[3]? = some p.midInput
  midInputSecondary : w[4]? = some p.midInputSecondary
  midOutput : w[5]? = some p.midOutput
  midWeights : w[6]? = some p.midWeights
  localBase : w[7]? = some p.localBase
  slowIsExternal : ∃ flag, w[8]? = some flag ∧ (p.slowIsExternal = true ↔ flag ≠ 0)
  outMult : w[9]? = some p.outMult
  inMult1 : w[10]? = some p.inMult1
  inMult2 : w[11]? = some p.inMult2
  outShift : w[12]? = some p.outShift

theorem speltBy_of_ofWords (h : ofWords w = .ok p) : p.SpeltBy w := by
  unfold ofWords at h
  split at h
  · rename_i w0 w1 w2 w3 w4 w5 w6 w7 w8 w9 w10 w11 w12 rest
    split at h
    · cases h
    · cases h
      have hflag : (ofFields #v[w0, w1, w2, w3, w4, w5, w6, w7, w8, w9, w10, w11, w12]).slowIsExternal =
          true ↔ w8 ≠ 0 := bne_iff_ne
      exact ⟨rfl, rfl, rfl, rfl, rfl, rfl, rfl, rfl, ⟨w8, rfl, hflag⟩, rfl, rfl, rfl, rfl⟩
  · cases h

theorem ofWords_ne_unaligned (w : List UInt32) (n : Nat) : ofWords w ≠ .error (.unaligned n) := by
  unfold ofWords
  split
  · split <;> simp
  · simp

theorem ofWords_toWords (h : p.outShift < 32) : ofWords p.toWords = .ok p := by
  have hread := ofWords_block ⟨p.toWords.toArray, rfl⟩ []
  rw [List.append_nil, ofFields_toWords] at hread
  exact hread.trans (if_neg (UInt32.not_le.mpr h))

/-! ## Reading bytes -/

theorem ofBytes_aligned (h : b.length % 4 = 0) : ofBytes b = ofWords (words b) :=
  if_neg (not_not_intro h)

theorem ofBytes_flatMap_bytes (w : List UInt32) : ofBytes (w.flatMap bytes) = ofWords w := by
  have haligned : (w.flatMap bytes).length % 4 = 0 := by
    rw [length_flatMap_bytes]
    simp
  rw [ofBytes_aligned haligned, words_flatMap_bytes]

theorem ofBytes_toWords (h : p.outShift < 32) : ofBytes (p.toWords.flatMap bytes) = .ok p :=
  (ofBytes_flatMap_bytes _).trans (ofWords_toWords h)

theorem ofBytes_eq_unaligned_iff {n : Nat} :
    ofBytes b = .error (.unaligned n) ↔ b.length % 4 ≠ 0 ∧ b.length = n := by
  by_cases haligned : b.length % 4 = 0
  · simp [ofBytes_aligned haligned, ofWords_ne_unaligned, haligned]
  · simp [ofBytes, haligned]

/-- What is read from bytes is read from the words that they spell. -/
theorem ofWords_of_ofBytes (h : ofBytes b = .ok p) : ofWords (words b) = .ok p := by
  by_cases haligned : b.length % 4 = 0
  · rwa [ofBytes_aligned haligned] at h
  · rw [ofBytes_eq_unaligned_iff.mpr ⟨haligned, rfl⟩] at h
    cases h

/-- **The codec of parameter blocks.** A block whose shift is below 32 is read back as it was, from its
words and from their bytes. From any list of words a block is read exactly if there are thirteen and the
last of them is below 32. Fewer words are refused for their number, whatever they hold, a larger shift for
itself, and what follows the thirteenth word has no part in either. The block is written as the first
thirteen words, with one for a flag that is set. From any list of bytes, a number of bytes that is no
multiple of four is refused for that, and all else is read as the words that the bytes spell. What was
read is read again from what it is written as. -/
theorem codec_round_trips :
    (∀ p : Params, p.outShift < 32 →
      ofWords p.toWords = .ok p ∧ ofBytes (p.toWords.flatMap bytes) = .ok p) ∧
    (∀ w : List UInt32,
      ((∃ p, ofWords w = .ok p) ↔ ∃ h : 13 ≤ w.length, w[12] < 32) ∧
      (w.length < 13 → ofWords w = .error (.tooShort 13 w.length)) ∧
      (∀ h : 13 ≤ w.length, (32 : UInt32) ≤ w[12] → ofWords w = .error (.shiftOutOfRange w[12])) ∧
      (13 ≤ w.length → ∀ rest, ofWords (w ++ rest) = ofWords w) ∧
      ∀ p, ofWords w = .ok p →
        p.toWords = (w.take 13).modify 8 (fun flag => if flag = 0 then 0 else 1) ∧
          ofWords p.toWords = .ok p) ∧
    ∀ b : List UInt8,
      (∀ n, ofBytes b = .error (.unaligned n) ↔ b.length % 4 ≠ 0 ∧ b.length = n) ∧
      (b.length % 4 = 0 → ∃ w, Spells b w ∧ ofBytes b = ofWords w) ∧
      ∀ p, ofBytes b = .ok p → ofBytes (p.toWords.flatMap bytes) = .ok p := by
  refine ⟨fun p hshift => ⟨ofWords_toWords hshift, ofBytes_toWords hshift⟩, fun w => ?_, fun b => ?_⟩
  · refine ⟨⟨?_, fun ⟨h, hshift⟩ => ofWords_exists h hshift⟩, ofWords_short,
      fun h hshift => ofWords_overshift h hshift, fun h => ofWords_append h, ?_⟩
    · rintro ⟨p, hp⟩
      obtain ⟨-, hshift, hlong, hlast⟩ := ofWords_inv hp
      exact ⟨hlong, hlast ▸ hshift⟩
    · intro p hp
      obtain ⟨hwritten, hshift, -⟩ := ofWords_inv hp
      exact ⟨hwritten, ofWords_toWords hshift⟩
  · refine ⟨fun n => ofBytes_eq_unaligned_iff,
      fun h => ⟨words b, spells_words h, ofBytes_aligned h⟩, ?_⟩
    intro p hp
    obtain ⟨-, hshift, -⟩ := ofWords_inv (ofWords_of_ofBytes hp)
    exact ofBytes_toWords hshift

/-- A block whose flag is the number seven, with a shift of 31 and one word too many. -/
def flaggedWords : List UInt32 :=
  [0x10000000, 0x11000000, 0x12000000, 0x10000, 0x20000, 0x30000, 0x40000, 0xffffffff, 7, 1, 3, 5, 31,
    99]

/-- The flag is written as one, and the block is the same when it is read again. -/
theorem codec_round_trips_flagged : ∃ p, ofWords flaggedWords = .ok p ∧
    p.toWords = [0x10000000, 0x11000000, 0x12000000, 0x10000, 0x20000, 0x30000, 0x40000, 0xffffffff,
      1, 1, 3, 5, 31] ∧
    ofWords p.toWords = .ok p ∧ ofBytes (p.toWords.flatMap bytes) = .ok p ∧
    ofBytes ((p.toWords.flatMap bytes).drop 1) = .error (.unaligned 51) := by
  obtain ⟨hblocks, hwords, hbytes⟩ := codec_round_trips
  obtain ⟨haccepted, -, -, -, hread⟩ := hwords flaggedWords
  obtain ⟨p, hp⟩ := haccepted.mpr ⟨by decide, by decide⟩
  obtain ⟨hwritten, hagain⟩ := hread p hp
  obtain ⟨-, hshift, -⟩ := ofWords_inv hp
  obtain ⟨hrefused, -, -⟩ := hbytes ((p.toWords.flatMap bytes).drop 1)
  have hlength : ((p.toWords.flatMap bytes).drop 1).length = 51 := rfl
  have hodd : ((p.toWords.flatMap bytes).drop 1).length % 4 ≠ 0 := by
    rw [hlength]
    decide
  exact ⟨p, hp, hwritten, hagain, (hblocks p hshift).2, (hrefused 51).mpr ⟨hodd, hlength⟩⟩

end Params

end TileStream
