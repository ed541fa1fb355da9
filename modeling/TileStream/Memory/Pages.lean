import Std.Data.HashMap
/-!
# Paged byte storage

The bytes of a tier are kept in pages of 4096 bytes that appear when they are first written; a byte that
was never written is zero. An access goes page by page: each turn of its loop handles the bytes up to the
next page boundary. `Pages.byteAt` is the view of a store as a map from addresses to bytes, `byteAt_write`
says what a write does to it and `getElem_read` what a read takes from it.
-/

namespace TileStream

/-- The bytes of one page. -/
abbrev pageSize : Nat := 4096

/-- A page of a store. -/
abbrev Page := Vector UInt8 pageSize

namespace Page

/-- A page of zeros. -/
def zero : Page := Vector.replicate pageSize 0

/-- Copy bytes over those of a page, from place `offset` on. -/
def copy (page : Page) (offset : Nat) : List UInt8 → Page
  | [] => page
  | b :: rest => copy (page.setIfInBounds offset b) (offset + 1) rest

theorem getElem_copy (page : Page) (offset : Nat) (data : List UInt8) {k : Nat} (hk : k < pageSize) :
    (page.copy offset data)[k] =
      if offset ≤ k then (data[k - offset]?).getD page[k] else page[k] := by
  induction data generalizing page offset with
  | nil => simp [copy]
  | cons b rest ih =>
    rw [copy, ih, Vector.getElem_setIfInBounds hk]
    by_cases heq : offset = k
    · subst heq
      rw [if_neg (by omega), if_pos rfl, if_pos (Nat.le_refl _), Nat.sub_self]
      rfl
    · by_cases hle : offset ≤ k
      · rw [if_pos (by omega), if_neg heq, if_pos hle,
          show k - offset = (k - (offset + 1)) + 1 by omega, List.getElem?_cons_succ]
      · rw [if_neg (by omega), if_neg heq, if_neg hle]

end Page

/-- The written pages, by page number. -/
structure Pages where
  table : Std.HashMap Nat Page

namespace Pages

/-- No page has been written. -/
def empty : Pages := ⟨∅⟩

instance : Inhabited Pages := ⟨empty⟩

/-- The place of an address in its page. -/
def slotOf (addr : Nat) : Fin pageSize := ⟨addr % pageSize, Nat.mod_lt _ (by decide)⟩

/-- The byte at an address. -/
def byteAt (p : Pages) (addr : Nat) : UInt8 :=
  match p.table[addr / pageSize]? with
  | some page => page[slotOf addr]
  | none => 0

/-- How many of the `len` bytes at an address lie in the page of the first one. -/
def chunk (addr len : Nat) : Nat := min len (pageSize - addr % pageSize)

/-- Write bytes that do not reach past the page of the first one. -/
def writeChunk (p : Pages) (addr : Nat) (data : List UInt8) : Pages :=
  ⟨p.table.alter (addr / pageSize) fun page? =>
    some ((page?.getD Page.zero).copy (addr % pageSize) data)⟩

/-- The `n` bytes at an address, which do not reach past its page. -/
def readChunk (p : Pages) (addr n : Nat) : Array UInt8 :=
  match p.table[addr / pageSize]? with
  | some page => page.toArray.extract (addr % pageSize) (addr % pageSize + n)
  | none => Array.replicate n 0

theorem chunk_le (addr len : Nat) : chunk addr len ≤ len := Nat.min_le_left _ _

theorem chunk_le_room (addr len : Nat) : addr % pageSize + chunk addr len ≤ pageSize := by
  have := Nat.mod_lt addr (show 0 < pageSize by decide)
  unfold chunk
  omega

theorem chunk_pos (addr : Nat) {len : Nat} (h : 0 < len) : 0 < chunk addr len := by
  have := Nat.mod_lt addr (show 0 < pageSize by decide)
  unfold chunk
  omega

/-- The next `i` bytes lie in the page of an address when there is room for them. -/
theorem page_add {addr i : Nat} (h : addr % pageSize + i < pageSize) :
    (addr + i) / pageSize = addr / pageSize ∧
      (addr + i) % pageSize = addr % pageSize + i := by
  unfold pageSize at *
  omega

/-- In one page, places are ordered as the addresses are. -/
theorem place_sub {addr other : Nat} (h : addr / pageSize = other / pageSize) :
    (addr % pageSize ≤ other % pageSize ↔ addr ≤ other) ∧
      other % pageSize - addr % pageSize = other - addr := by
  unfold pageSize at *
  omega

theorem size_readChunk (p : Pages) {addr n : Nat} (h : addr % pageSize + n ≤ pageSize) :
    (p.readChunk addr n).size = n := by
  unfold readChunk
  split
  · rw [Array.size_extract, Vector.size_toArray]
    omega
  · exact Array.size_replicate

/-- Write bytes at consecutive addresses. -/
def write (p : Pages) (addr : Nat) (data : List UInt8) : Pages :=
  if 0 < data.length then
    let n := chunk addr data.length
    (p.writeChunk addr (data.take n)).write (addr + n) (data.drop n)
  else p
termination_by data.length
decreasing_by
  have := chunk_pos addr ‹0 < data.length›
  rw [List.length_drop]
  omega

/-- Fill a buffer of `len` bytes, of which the first are `filled`, with the bytes from `cursor` on. -/
def fill (p : Pages) (cursor len : Nat) (filled : Array UInt8) : Array UInt8 :=
  if filled.size < len then
    let n := chunk cursor (len - filled.size)
    p.fill (cursor + n) len (filled ++ p.readChunk cursor n)
  else filled
termination_by len - filled.size
decreasing_by
  have := chunk_pos cursor (Nat.sub_pos_of_lt ‹filled.size < len›)
  rw [Array.size_append, size_readChunk p (chunk_le_room _ _)]
  omega

/-- The `len` bytes from an address on. -/
def read (p : Pages) (addr len : Nat) : Array UInt8 := p.fill addr len #[]

/-- The number of pages written. -/
def count (p : Pages) : Nat := p.table.size

@[simp] theorem byteAt_empty (addr : Nat) : empty.byteAt addr = 0 := by
  simp [byteAt, empty]

/-! ## What a write leaves -/

theorem byteAt_writeChunk (p : Pages) (addr other : Nat) {data : List UInt8}
    (h : addr % pageSize + data.length ≤ pageSize) :
    (p.writeChunk addr data).byteAt other =
      if addr ≤ other then (data[other - addr]?).getD (p.byteAt other) else p.byteAt other := by
  by_cases hpage : addr / pageSize = other / pageSize
  · have hold : (p.table[other / pageSize]?.getD Page.zero)[slotOf other] = p.byteAt other := by
      unfold byteAt
      cases p.table[other / pageSize]? <;> simp [Page.zero]
    obtain ⟨hle, hsub⟩ := place_sub hpage
    rw [← hold]
    simp only [byteAt, writeChunk, Std.HashMap.getElem?_alter, hpage, beq_self_eq_true, if_true]
    simp only [slotOf, Fin.getElem_fin, Page.getElem_copy, hle, hsub]
  · have hkeep : (p.writeChunk addr data).byteAt other = p.byteAt other := by
      simp [byteAt, writeChunk, Std.HashMap.getElem?_alter, hpage]
    rw [hkeep]
    split
    · have hpast : data.length ≤ other - addr := by
        unfold pageSize at *
        omega
      rw [List.getElem?_eq_none hpast, Option.getD_none]
    · rfl

@[simp] theorem write_nil (p : Pages) (addr : Nat) : p.write addr [] = p := by
  rw [write]
  rfl

theorem byteAt_write (p : Pages) (addr other : Nat) (data : List UInt8) :
    (p.write addr data).byteAt other =
      if addr ≤ other then (data[other - addr]?).getD (p.byteAt other) else p.byteAt other := by
  fun_induction write p addr data with
  | case1 p addr data h n ih =>
    have hn : n ≤ data.length := chunk_le _ _
    have hlen : (data.take n).length = n := List.length_take_of_le hn
    have hroom : addr % pageSize + (data.take n).length ≤ pageSize := by
      rw [hlen]; exact chunk_le_room _ _
    rw [ih, byteAt_writeChunk p addr other hroom]
    by_cases hlo : addr ≤ other
    · rw [if_pos hlo, if_pos hlo, List.getElem?_take, List.getElem?_drop]
      by_cases hcut : addr + n ≤ other
      · rw [if_pos hcut, if_neg (by omega), show n + (other - (addr + n)) = other - addr by omega]
        rfl
      · rw [if_neg hcut, if_pos (by omega)]
    · rw [if_neg hlo, if_neg hlo, if_neg (by omega)]
  | case2 p addr data h =>
    rw [List.eq_nil_of_length_eq_zero (by omega : data.length = 0), List.getElem?_nil]
    simp

/-- The pages after a write are those before it and those of the bytes written. -/
theorem mem_write_iff (p : Pages) (addr k : Nat) (data : List UInt8) :
    k ∈ (p.write addr data).table ↔
      k ∈ p.table ∨ ∃ i < data.length, (addr + i) / pageSize = k := by
  fun_induction write p addr data with
  | case1 p addr data h n ih =>
    have hn : n ≤ data.length := chunk_le _ _
    have hpos : 0 < n := chunk_pos addr h
    have hroom : addr % pageSize + n ≤ pageSize := chunk_le_room _ _
    have hsame : ∀ i < n, (addr + i) / pageSize = addr / pageSize :=
      fun i hi => (page_add (by omega)).1
    have hchunk : k ∈ (p.writeChunk addr (data.take n)).table ↔
        addr / pageSize = k ∨ k ∈ p.table := by
      simp only [writeChunk, Std.HashMap.mem_alter, beq_iff_eq, Option.isSome_some, if_true_left,
        Decidable.or_iff_not_imp_left]
    rw [ih, hchunk, List.length_drop]
    constructor
    · intro hk
      rcases hk with (hfirst | hold) | ⟨i, hi, hpage⟩
      · exact .inr ⟨0, h, hfirst⟩
      · exact .inl hold
      · exact .inr ⟨n + i, by omega, by rw [← hpage, Nat.add_assoc]⟩
    · intro hk
      rcases hk with hold | ⟨i, hi, hpage⟩
      · exact .inl (.inr hold)
      · by_cases hin : i < n
        · exact .inl (.inl (by rw [← hpage, hsame i hin]))
        · exact .inr ⟨i - n, by omega, by rw [← hpage]; congr 1; omega⟩
  | case2 p addr data h =>
    exact ⟨.inl, fun hk => hk.resolve_right fun ⟨i, hi, _⟩ => h (by omega)⟩

/-! ## What a read yields -/

theorem getElem_readChunk (p : Pages) {addr n : Nat} (h : addr % pageSize + n ≤ pageSize) {i : Nat}
    (hi : i < (p.readChunk addr n).size) : (p.readChunk addr n)[i] = p.byteAt (addr + i) := by
  have hin : i < n := by rwa [size_readChunk p h] at hi
  obtain ⟨hpage, hplace⟩ := page_add (show addr % pageSize + i < pageSize by omega)
  cases hold : p.table[addr / pageSize]? with
  | none => simp [readChunk, byteAt, hpage, hold]
  | some page => simp [readChunk, byteAt, hpage, hold, slotOf, hplace]

/-- The loop of a read leaves what was filled and adds the bytes from the cursor on. -/
theorem fill_eq (p : Pages) (cursor len : Nat) (filled : Array UInt8) :
    p.fill cursor len filled =
      filled ++ Array.ofFn fun i : Fin (len - filled.size) => p.byteAt (cursor + i) := by
  fun_induction fill p cursor len filled with
  | case1 cursor filled h n ih =>
    have hroom : cursor % pageSize + n ≤ pageSize := chunk_le_room _ _
    have hn : n ≤ len - filled.size := chunk_le _ _
    have hsize := size_readChunk p hroom
    rw [ih, Array.append_assoc, Array.append_right_inj]
    apply Array.ext
    · simp only [Array.size_append, Array.size_ofFn, hsize]
      omega
    · intro i hi hi'
      rw [Array.getElem_append, Array.getElem_ofFn]
      split
      · exact getElem_readChunk p hroom _
      · simp only [Array.getElem_ofFn, hsize]
        congr 1
        omega
  | case2 cursor filled h =>
    apply Array.ext
    · simp only [Array.size_append, Array.size_ofFn]
      omega
    · intro i hi _
      exact (Array.getElem_append_left hi).symm

theorem read_eq (p : Pages) (addr len : Nat) :
    p.read addr len = Array.ofFn fun i : Fin len => p.byteAt (addr + i) := by
  rw [read, fill_eq, Array.empty_append]
  rfl

@[simp] theorem size_read (p : Pages) (addr len : Nat) : (p.read addr len).size = len := by
  rw [read_eq, Array.size_ofFn]

@[simp] theorem getElem_read (p : Pages) (addr len i : Nat) (h : i < (p.read addr len).size) :
    (p.read addr len)[i] = p.byteAt (addr + i) := by
  simp only [read_eq, Array.getElem_ofFn]

end Pages

end TileStream
