/-!
# Little-endian words

A 32-bit word is stored as four bytes, least significant first. `words_flatMap_bytes` says that reading
gives back the words that were written, `flatMap_bytes_words` that writing gives back the bytes that were
read.
-/

namespace TileStream.LittleEndian

/-- The word that four bytes spell. -/
def word (a b c d : UInt8) : UInt32 :=
  UInt32.ofNat (a.toNat + 0x100 * b.toNat + 0x10000 * c.toNat + 0x1000000 * d.toNat)

/-- The four bytes of a word. -/
def bytes (w : UInt32) : List UInt8 :=
  [UInt8.ofNat w.toNat, UInt8.ofNat (w.toNat / 0x100), UInt8.ofNat (w.toNat / 0x10000),
   UInt8.ofNat (w.toNat / 0x1000000)]

/-- The words that a list of bytes spells; up to three bytes at its end are left out. -/
def words : List UInt8 → List UInt32
  | a :: b :: c :: d :: rest => word a b c d :: words rest
  | _ => []

@[simp] theorem length_bytes (w : UInt32) : (bytes w).length = 4 := rfl

theorem toNat_word (a b c d : UInt8) :
    (word a b c d).toNat =
      a.toNat + 0x100 * b.toNat + 0x10000 * c.toNat + 0x1000000 * d.toNat := by
  have ha := a.toNat_lt
  have hb := b.toNat_lt
  have hc := c.toNat_lt
  have hd := d.toNat_lt
  simp only [word, UInt32.toNat_ofNat']
  omega

theorem bytes_word (a b c d : UInt8) : bytes (word a b c d) = [a, b, c, d] := by
  have ha := a.toNat_lt
  have hb := b.toNat_lt
  have hc := c.toNat_lt
  have hd := d.toNat_lt
  simp only [bytes, toNat_word, List.cons.injEq, and_true, ← UInt8.toNat_inj, UInt8.toNat_ofNat']
  omega

theorem words_bytes_append (w : UInt32) (rest : List UInt8) :
    words (bytes w ++ rest) = w :: words rest := by
  have hw := w.toNat_lt
  simp only [bytes, List.cons_append, List.nil_append, words, List.cons.injEq, and_true,
    ← UInt32.toNat_inj, toNat_word, UInt8.toNat_ofNat']
  omega

/-- The bytes of a word spell it. -/
theorem word_bytes (w : UInt32) :
    word (UInt8.ofNat w.toNat) (UInt8.ofNat (w.toNat / 0x100)) (UInt8.ofNat (w.toNat / 0x10000))
      (UInt8.ofNat (w.toNat / 0x1000000)) = w :=
  (List.cons.inj (words_bytes_append w [])).1

theorem words_flatMap_bytes (ws : List UInt32) : words (ws.flatMap bytes) = ws := by
  induction ws with
  | nil => rfl
  | cons w ws ih => rw [List.flatMap_cons, words_bytes_append, ih]

theorem flatMap_bytes_words (bs : List UInt8) (h : bs.length % 4 = 0) :
    (words bs).flatMap bytes = bs := by
  fun_induction words bs with
  | case1 a b c d rest ih =>
    rw [List.flatMap_cons, bytes_word, ih (by simp only [List.length_cons] at h; omega)]
    rfl
  | case2 bs hshort =>
    match bs with
    | [] => rfl
    | [_] | [_, _] | [_, _, _] => simp at h
    | a :: b :: c :: d :: rest => exact absurd rfl (hshort a b c d rest)

theorem length_words (bs : List UInt8) : (words bs).length = bs.length / 4 := by
  fun_induction words bs with
  | case1 a b c d rest ih => simp only [List.length_cons, ih]; omega
  | case2 bs hshort =>
    match bs with
    | [] | [_] | [_, _] | [_, _, _] => simp
    | a :: b :: c :: d :: rest => exact absurd rfl (hshort a b c d rest)

theorem getElem?_words (bs : List UInt8) {n : Nat} (h : 4 * n + 3 < bs.length) :
    (words bs)[n]? = some (word (bs.getD (4 * n) 0)
      (bs.getD (4 * n + 1) 0) (bs.getD (4 * n + 2) 0) (bs.getD (4 * n + 3) 0)) := by
  fun_induction words bs generalizing n with
  | case1 a b c d rest ih =>
    cases n with
    | zero => rfl
    | succ n =>
      rw [List.getElem?_cons_succ, ih (by simp only [List.length_cons] at h; omega)]
      simp only [Nat.mul_succ, List.getD_eq_getElem?_getD, show ∀ i, 4 * n + 4 + i = (4 * n + i) + 4 by
        intro i; omega, List.getElem?_cons_succ]
  | case2 bs hshort =>
    rcases bs with _ | ⟨a, _ | ⟨b, _ | ⟨c, _ | ⟨d, rest⟩⟩⟩⟩
    case cons.cons.cons.cons => exact absurd rfl (hshort a b c d rest)
    all_goals
      simp only [List.length_cons, List.length_nil] at h
      omega

end TileStream.LittleEndian
