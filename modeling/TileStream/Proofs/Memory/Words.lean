import TileStream.Proofs.Memory.Image

/-! # What the reads of a bank yield

Every read that fits yields bytes of the bank, and a typed read the words that
four bytes at a time spell. Banks with the same bytes in a range answer a read of
it alike, be it with a fault. -/
namespace TileStream.Bank

variable {b b' : Bank} {addr len count : Nat}

/-- The signed little-endian word at an address. -/
def int32At (b : Bank) (addr : Nat) : Int32 :=
  (LittleEndian.word (b.byteAt addr) (b.byteAt (addr + 1)) (b.byteAt (addr + 2))
    (b.byteAt (addr + 3))).toInt32

/-- As a number, a word is the two's complement of the one its bytes spell. -/
theorem toInt_int32At (b : Bank) (addr : Nat) :
    (b.int32At addr).toInt = Int.bmod (((b.byteAt addr).toNat + 0x100 * (b.byteAt (addr + 1)).toNat +
      0x10000 * (b.byteAt (addr + 2)).toNat + 0x1000000 * (b.byteAt (addr + 3)).toNat : Nat))
      0x100000000 := by
  rw [int32At, ← LittleEndian.toNat_word]
  exact BitVec.toInt_eq_toNat_bmod _

theorem int32At_congr {addr' : Nat} (h : ∀ i < 4, b.byteAt (addr + i) = b'.byteAt (addr' + i)) :
    b.int32At addr = b'.int32At addr' := by
  have hzero : b.byteAt addr = b'.byteAt addr' := h 0 (by decide)
  rw [int32At, int32At, hzero, h 1 (by decide), h 2 (by decide), h 3 (by decide)]

theorem readInto_eq (h : AccessFits addr len) :
    b.readInto addr len = .ok (Array.ofFn fun i : Fin len => b.byteAt (addr + i)) :=
  readInto_eq_ok_iff.mpr ⟨h, Pages.read_eq b.pages addr len⟩

theorem read_eq (h : AccessFits addr len) :
    b.read addr len = if maxBuffer < len then .error .bufferTooLarge
      else .ok (Array.ofFn fun i : Fin len => b.byteAt (addr + i)) := by
  rw [read, checkBuffer]
  split
  · rfl
  · exact readInto_eq h

/-- What a read has yielded, it was of a size that a buffer can have, and the bytes existed. -/
theorem read_inv {bytes : Array UInt8} (h : b.read addr len = .ok bytes) :
    len ≤ maxBuffer ∧ AccessFits addr len ∧
      bytes = Array.ofFn fun i : Fin len => b.byteAt (addr + i) := by
  obtain ⟨_, -, hinto⟩ := Checked.bind_eq_ok.mp h
  obtain ⟨hfits, -⟩ := readInto_eq_ok_iff.mp hinto
  rw [read_eq hfits] at h
  split at h
  · cases h
  · cases h
    exact ⟨Nat.le_of_not_lt ‹_›, hfits, rfl⟩

theorem readInt32_eq (h : AccessFits addr 4) : b.readInt32 addr = .ok (b.int32At addr) := by
  rw [readInt32, readInto_eq h, Checked.ok_bind]
  rfl

theorem readInt32s_eq (h : AccessFits addr (count * 4)) (hbuffer : count * 4 ≤ maxBuffer) :
    b.readInt32s addr count = .ok ((List.range count).map fun i => b.int32At (addr + 4 * i)) := by
  rw [readInt32s, Unsigned.mul_of_lt (by unfold maxBuffer at hbuffer; omega), Checked.ok_bind,
    read_eq h, if_neg (Nat.not_lt_of_le hbuffer), Checked.ok_bind]
  have hlength : (Array.ofFn fun i : Fin (count * 4) => b.byteAt (addr + i)).toList.length =
      count * 4 := by simp
  have hbyte : ∀ k < count * 4, (Array.ofFn fun i : Fin (count * 4) =>
      b.byteAt (addr + i)).toList.getD k 0 = b.byteAt (addr + k) := by
    intro k hk
    simp [List.getD_eq_getElem?_getD, hk]
  congr 1
  apply List.ext_getElem?
  intro i
  by_cases hi : i < count
  · rw [List.getElem?_map, LittleEndian.getElem?_words _ (by omega), List.getElem?_map,
      List.getElem?_range hi, hbyte _ (by omega), hbyte _ (by omega), hbyte _ (by omega),
      hbyte _ (by omega)]
    rfl
  · rw [List.getElem?_eq_none, List.getElem?_eq_none]
    · simp only [List.length_map, List.length_range]
      omega
    · rw [List.length_map, LittleEndian.length_words]
      omega

theorem readInt32s_inv {words : List Int32} (h : b.readInt32s addr count = .ok words) :
    count * 4 ≤ maxBuffer ∧ words = (List.range count).map fun i => b.int32At (addr + 4 * i) := by
  obtain ⟨len, hlen, hread⟩ := Checked.bind_eq_ok.mp h
  obtain ⟨-, rfl⟩ := Unsigned.mul_eq_ok_iff.mp hlen
  obtain ⟨bytes, hread, -⟩ := Checked.bind_eq_ok.mp hread
  obtain ⟨hbuffer, hfits, -⟩ := read_inv hread
  rw [readInt32s_eq hfits hbuffer] at h
  cases h
  exact ⟨hbuffer, rfl⟩

theorem read_congr (h : ∀ i < len, b.byteAt (addr + i) = b'.byteAt (addr + i)) :
    b.read addr len = b'.read addr len := by
  have hpages : b.pages.read addr len = b'.pages.read addr len := by
    rw [Pages.read_eq, Pages.read_eq]
    exact congrArg Array.ofFn (funext fun i => h i i.isLt)
  rw [read, read, readInto, readInto, hpages]

theorem readInt32s_congr (h : ∀ i < count * 4, b.byteAt (addr + i) = b'.byteAt (addr + i)) :
    b.readInt32s addr count = b'.readInt32s addr count := by
  rw [readInt32s, readInt32s]
  cases hbytes : Unsigned.mul count 4 with
  | error f => rfl
  | ok bytes =>
    obtain ⟨-, rfl⟩ := Unsigned.mul_eq_ok_iff.mp hbytes
    rw [Checked.ok_bind, Checked.ok_bind, read_congr h]

end TileStream.Bank
