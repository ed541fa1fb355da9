import Mathlib.Data.Set.Card
import TileStream.Proofs.Memory.Words

/-! # A bank as a flat map of bytes

A history is the list of operations that a bank has gone through, oldest first.
`lastWritten` reads off it the byte most recently written at an address and
knows nothing of pages, cursors or words. `Reflects` says that a bank holds the
bytes, the pages and the counters of a history; one operation keeps that
(`Reflects.after`), so every history does (`run_exists`), and what a bank that
reflects a history answers is read off the history (`Reflects.answers`).

The only operation of those that fit that can stop is the accounting of a
transfer that would push the read counter past the last word. -/
namespace TileStream.Bank

/-- An operation on the memory of a tier. -/
inductive Op where
  | write (addr : Nat) (data : List UInt8)
  | writeByte (addr : Nat) (value : UInt8)
  | writeInt32 (addr : Nat) (value : Int32)
  | writeInt32s (addr : Nat) (values : List Int32)
  | read (addr len : Nat)
  | readInt32 (addr : Nat)
  | readInt32s (addr count : Nat)
  | allocate (name : String) (base size : Nat)
  | clearRegions
  | countRead (addr len : Nat)
  | countWrite (addr len : Nat)

namespace Op

/-- Read, and keep nothing of what was read. -/
def look {α : Type} (f : Bank → Checked α) : Stateful Bank Unit := fun b =>
  match f b with
  | .ok _ => .ok () b
  | .error e => .error e b

/-- Carry out an operation. A region that is refused is not registered. -/
def run : Op → Stateful Bank Unit
  | .write addr data => Bank.write addr data
  | .writeByte addr value => Bank.writeByte addr value
  | .writeInt32 addr value => Bank.writeInt32 addr value
  | .writeInt32s addr values => Bank.writeInt32s addr values
  | .read addr len => look (·.read addr len)
  | .readInt32 addr => look (·.readInt32 addr)
  | .readInt32s addr count => look (·.readInt32s addr count)
  | .allocate name base size => discard (Bank.allocate name base size)
  | .clearRegions => fun b => .ok () b.clearRegions
  | .countRead addr len => Bank.countRead addr len
  | .countWrite addr len => fun b => .ok () (b.countWrite addr len)

/-- The bytes of an operation end below the last address, and a buffer for those it reads can exist. -/
def Fits : Op → Prop
  | .write addr data => AccessFits addr data.length
  | .writeByte addr _ => AccessFits addr 1
  | .writeInt32 addr _ => AccessFits addr 4
  | .writeInt32s addr values => AccessFits addr (values.length * 4)
  | .read addr len => AccessFits addr len ∧ len ≤ maxBuffer
  | .readInt32 addr => AccessFits addr 4
  | .readInt32s addr count => AccessFits addr (count * 4) ∧ count * 4 ≤ maxBuffer
  | .allocate .. | .clearRegions | .countRead .. | .countWrite .. => True

/-- The operation only looks at the bank. -/
def Reading : Op → Prop
  | .read .. | .readInt32 .. | .readInt32s .. => True
  | _ => False

/-- Where an operation writes. -/
def target : Op → Nat
  | .write addr _ | .writeByte addr _ | .writeInt32 addr _ | .writeInt32s addr _ => addr
  | _ => 0

/-- The bytes that an operation writes. -/
def data : Op → List UInt8
  | .write _ data => data
  | .writeByte _ value => [value]
  | .writeInt32 _ value => LittleEndian.bytes value.toUInt32
  | .writeInt32s _ values => values.flatMap fun z => LittleEndian.bytes z.toUInt32
  | _ => []

/-- The bytes by which an operation raises the read counter. -/
def recorded : Op → Nat
  | .countRead _ len => len
  | _ => 0

/-- The byte that an operation writes at an address. -/
def byteAt? (op : Op) (a : Nat) : Option UInt8 :=
  if op.target ≤ a then op.data[a - op.target]? else none

/-- The word that an operation writes at an address. -/
def wordAt? : Op → Nat → Option Int32
  | .writeInt32 addr value, a => if a = addr then some value else none
  | .writeInt32s addr values, a =>
    if addr ≤ a ∧ (a - addr) % 4 = 0 then values[(a - addr) / 4]? else none
  | _, _ => none

end Op

/-! ## What a history wrote -/

/-- The byte most recently written at an address. -/
def lastWritten (ops : List Op) (a : Nat) : Option UInt8 := ops.reverse.findSome? (·.byteAt? a)

/-- The flat map of a history: the byte most recently written at an address, or zero. -/
def flat (ops : List Op) (a : Nat) : UInt8 := (lastWritten ops a).getD 0

/-- The pages in which a byte was written. -/
def pagesWritten (ops : List Op) : Set Nat :=
  {k | ∃ a, a / pageSize = k ∧ (lastWritten ops a).isSome}

/-- The bytes of all reads that were accounted for. -/
def recorded (ops : List Op) : Nat := (ops.map Op.recorded).sum

theorem lastWritten_append (before after : List Op) (a : Nat) :
    lastWritten (before ++ after) a = (lastWritten after a).or (lastWritten before a) := by
  rw [lastWritten, List.reverse_append, List.findSome?_append]
  rfl

theorem lastWritten_singleton (op : Op) (a : Nat) : lastWritten [op] a = op.byteAt? a := by
  simp [lastWritten]

/-- Operations that write nothing at an address leave what was written there before. -/
theorem lastWritten_of_untouched (before : List Op) {after : List Op} {op : Op} {a : Nat} {v : UInt8}
    (hop : op.byteAt? a = some v) (hafter : ∀ later ∈ after, later.byteAt? a = none) :
    lastWritten (before ++ op :: after) a = some v := by
  have hlate : lastWritten after a = none := by
    rw [lastWritten, List.findSome?_eq_none_iff]
    exact fun later h => hafter later (List.mem_reverse.mp h)
  rw [List.append_cons, lastWritten_append, hlate, Option.none_or, lastWritten_append,
    lastWritten_singleton, hop]
  rfl

theorem getElem?_flatMap_bytes (values : List Int32) (i : Nat) {k : Nat} (hk : k < 4) :
    (values.flatMap fun z => LittleEndian.bytes z.toUInt32)[4 * i + k]? =
      values[i]?.bind fun z => (LittleEndian.bytes z.toUInt32)[k]? := by
  induction values generalizing i with
  | nil => rfl
  | cons z rest ih =>
    rw [List.flatMap_cons]
    cases i with
    | zero => rw [List.getElem?_append_left (by simpa using hk), Nat.mul_zero, Nat.zero_add]; rfl
    | succ i =>
      rw [List.getElem?_append_right (by rw [LittleEndian.length_bytes]; omega),
        LittleEndian.length_bytes, show 4 * (i + 1) + k - 4 = 4 * i + k by omega, ih]
      rfl

/-- An operation that writes a word writes its four bytes. -/
theorem Op.byteAt?_of_wordAt? {op : Op} {addr : Nat} {z : Int32} (h : op.wordAt? addr = some z)
    {k : Nat} (hk : k < 4) : op.byteAt? (addr + k) = (LittleEndian.bytes z.toUInt32)[k]? := by
  cases op with
  | writeInt32 base value =>
    obtain ⟨rfl, hvalue⟩ := Option.ite_none_right_eq_some.mp h
    cases hvalue
    rw [byteAt?, target, if_pos (Nat.le_add_right _ _), Nat.add_sub_cancel_left, data]
  | writeInt32s base values =>
    obtain ⟨⟨hle, hmod⟩, hvalue⟩ := Option.ite_none_right_eq_some.mp h
    rw [byteAt?, target, if_pos (by omega), data,
      show addr + k - base = 4 * ((addr - base) / 4) + k by omega, getElem?_flatMap_bytes _ _ hk,
      hvalue]
    rfl
  | _ => cases h

theorem Op.fits_of_wordAt? {op : Op} {addr : Nat} {z : Int32} (h : op.wordAt? addr = some z)
    (hf : op.Fits) : AccessFits addr 4 := by
  cases op with
  | writeInt32 base value =>
    obtain ⟨rfl, -⟩ := Option.ite_none_right_eq_some.mp h
    exact hf
  | writeInt32s base values =>
    obtain ⟨⟨hle, hmod⟩, hvalue⟩ := Option.ite_none_right_eq_some.mp h
    obtain ⟨hindex, -⟩ := List.getElem?_eq_some_iff.mp hvalue
    have hend : base + values.length * 4 < wordLimit := hf.resolve_left (by omega)
    exact .inr (by omega)
  | _ => cases h

/-! ## One operation -/

/-- What an operation that does not stop does to a bank. -/
structure Op.Effect (op : Op) (b b' : Bank) : Prop where
  pages : b'.pages = b.pages.write op.target op.data
  bytesWritten : b'.bytesWritten = b.bytesWritten + op.data.length
  bytesRead : b'.bytesRead = b.bytesRead + op.recorded

theorem length_flatMap_bytes (values : List Int32) :
    (values.flatMap fun z => LittleEndian.bytes z.toUInt32).length = values.length * 4 := by
  simp

namespace Op

variable {op : Op} {b b' : Bank}

theorem look_of_ok {α : Type} (f : Bank → Checked α) {a : α} (h : f b = .ok a) :
    look f b = .ok () b := by
  rw [look, h]

/-- A read that fits finishes and changes nothing. -/
theorem run_of_reading (hreading : op.Reading) (hf : op.Fits) : op.run b = .ok () b := by
  cases op with
  | read addr len =>
    have hread := Bank.read_eq (b := b) hf.1
    rw [if_neg (Nat.not_lt_of_le hf.2)] at hread
    exact look_of_ok (·.read addr len) hread
  | readInt32 addr => exact look_of_ok (·.readInt32 addr) (Bank.readInt32_eq hf)
  | readInt32s addr count =>
    exact look_of_ok (·.readInt32s addr count) (Bank.readInt32s_eq hf.1 hf.2)
  | _ => exact hreading.elim

/-- Whatever keeps the bytes and the counters has the effect of an operation that touches neither. -/
theorem Effect.of_kept (hdata : op.data = []) (hrecorded : op.recorded = 0)
    (hpages : b'.pages = b.pages) (hwritten : b'.bytesWritten = b.bytesWritten)
    (hread : b'.bytesRead = b.bytesRead) : op.Effect b b' where
  pages := by rw [hdata, Pages.write_nil, hpages]
  bytesWritten := by rw [hdata, hwritten]; rfl
  bytesRead := by rw [hrecorded, hread]; rfl

theorem write_exists (hrun : op.run = Bank.write op.target op.data)
    (hf : AccessFits op.target op.data.length) (hrecorded : op.recorded = 0) :
    ∃ b', op.run b = .ok () b' ∧ op.Effect b b' := by
  have hwrite := Bank.write_eq_ok (b := b) (hf.imp_left List.length_eq_zero_iff.mp)
  exact ⟨_, by rw [hrun, hwrite], rfl, rfl, by rw [hrecorded]; rfl⟩

/-- An operation that fits finishes when the read counter has room. -/
theorem run_exists (hf : op.Fits) (hroom : b.bytesRead + op.recorded < wordLimit) :
    ∃ b', op.run b = .ok () b' ∧ op.Effect b b' := by
  cases op with
  | write addr data => exact write_exists rfl hf rfl
  | writeByte addr value => exact write_exists rfl hf rfl
  | writeInt32 addr value => exact write_exists rfl hf rfl
  | writeInt32s addr values =>
    have hlength : AccessFits addr (values.flatMap fun z => LittleEndian.bytes z.toUInt32).length := by
      rw [length_flatMap_bytes]
      exact hf
    exact write_exists rfl hlength rfl
  | read addr len => exact ⟨b, run_of_reading trivial hf, .of_kept rfl rfl rfl rfl rfl⟩
  | readInt32 addr => exact ⟨b, run_of_reading trivial hf, .of_kept rfl rfl rfl rfl rfl⟩
  | readInt32s addr count => exact ⟨b, run_of_reading trivial hf, .of_kept rfl rfl rfl rfl rfl⟩
  | allocate name base size =>
    obtain ⟨verdict, b', hallocate⟩ := Bank.allocate_exists name base size b
    obtain ⟨more, rfl⟩ := Bank.allocate_inv hallocate
    exact ⟨_, Stateful.discard_of_ok hallocate, .of_kept rfl rfl rfl rfl rfl⟩
  | clearRegions => exact ⟨_, rfl, .of_kept rfl rfl rfl rfl rfl⟩
  | countRead addr len =>
    have hadd : Unsigned.add b.bytesRead len = .ok (b.bytesRead + len) := if_pos hroom
    have hrun : Bank.countRead addr len b = .ok () { b with
        bytesRead := b.bytesRead + len
        regions := Region.touchFirst Region.countRead addr len b.regions } := by
      rw [Bank.countRead, hadd]
    exact ⟨_, hrun, (Pages.write_nil _ _).symm, rfl, rfl⟩
  | countWrite addr len => exact ⟨_, rfl, .of_kept rfl rfl rfl rfl rfl⟩

/-- Without room in the read counter, an operation stops and leaves the bank as it was. -/
theorem run_stops (hcount : b.bytesRead < wordLimit)
    (hroom : ¬ b.bytesRead + op.recorded < wordLimit) : op.run b = .error .addOverflow b := by
  cases op with
  | countRead addr len =>
    have hadd : Unsigned.add b.bytesRead len = .error .addOverflow := if_neg hroom
    rw [run, Bank.countRead, hadd]
  | _ => exact absurd hcount hroom

end Op

/-! ## Every history -/

/-- A bank holds the bytes, the pages and the counters of a history. -/
structure Reflects (b : Bank) (ops : List Op) : Prop where
  byte : ∀ a, b.byteAt a = flat ops a
  page : ∀ k, k ∈ b.pages.table ↔ k ∈ pagesWritten ops
  bytesWritten : b.bytesWritten = (ops.map (·.data.length)).sum
  bytesRead : b.bytesRead = recorded ops

theorem reflects_empty (tier : Tier) (capacity : Option Nat) : Reflects (empty tier capacity) [] where
  byte := Pages.byteAt_empty
  page k := by simp [empty, Pages.empty, pagesWritten, lastWritten]
  bytesWritten := rfl
  bytesRead := rfl

theorem mem_pagesWritten_append {ops : List Op} {op : Op} {k : Nat} :
    k ∈ pagesWritten (ops ++ [op]) ↔
      k ∈ pagesWritten ops ∨ ∃ i < op.data.length, (op.target + i) / pageSize = k := by
  simp only [pagesWritten, Set.mem_ofPred_eq, lastWritten_append, lastWritten_singleton,
    Option.isSome_or, Bool.or_eq_true]
  constructor
  · rintro ⟨a, ha, hnew | hold⟩
    · rw [Op.byteAt?] at hnew
      split at hnew
      · rename_i hle
        refine .inr ⟨a - op.target, by simpa using hnew, ?_⟩
        rw [Nat.add_sub_cancel' hle, ha]
      · cases hnew
    · exact .inl ⟨a, ha, hold⟩
  · rintro (⟨a, ha, hold⟩ | ⟨i, hi, hpage⟩)
    · exact ⟨a, ha, .inr hold⟩
    · refine ⟨op.target + i, hpage, .inl ?_⟩
      rw [Op.byteAt?, if_pos (Nat.le_add_right _ _), Nat.add_sub_cancel_left]
      simpa using hi

theorem run_cons_of_ok {b b' : Bank} {op : Op} {ops : List Op} (h : op.run b = .ok () b') :
    (op :: ops).forM Op.run b = ops.forM Op.run b' :=
  Stateful.bind_of_ok h

namespace Reflects

variable {b b' : Bank} {ops done : List Op} {op : Op}

/-- An operation turns a bank that reflects a history into one that reflects the longer history. -/
theorem after (h : Reflects b ops) (he : op.Effect b b') : Reflects b' (ops ++ [op]) where
  byte a := by
    rw [Bank.byteAt, he.pages, Pages.byteAt_write, flat, lastWritten_append, lastWritten_singleton,
      Op.byteAt?]
    have hold : b.pages.byteAt a = (lastWritten ops a).getD 0 := h.byte a
    rw [hold]
    split
    · cases op.data[a - op.target]? <;> rfl
    · rfl
  page k := by rw [he.pages, Pages.mem_write_iff, h.page, mem_pagesWritten_append]
  bytesWritten := by rw [he.bytesWritten, h.bytesWritten]; simp
  bytesRead := by rw [he.bytesRead, h.bytesRead]; simp [recorded]

/-- A history finishes, and the bank reflects it, as long as the read counter has room. -/
theorem run_exists (h : Reflects b done) (hfit : ∀ op ∈ ops, op.Fits)
    (hroom : recorded (done ++ ops) < wordLimit) :
    ∃ b', ops.forM Op.run b = .ok () b' ∧ Reflects b' (done ++ ops) := by
  induction ops generalizing b done with
  | nil => exact ⟨b, rfl, by rwa [List.append_nil]⟩
  | cons op ops ih =>
    rw [List.append_cons] at hroom ⊢
    have hfirst : b.bytesRead + op.recorded < wordLimit := by
      rw [h.bytesRead]
      simp only [recorded, List.map_append, List.sum_append, List.map_cons, List.sum_cons] at hroom ⊢
      omega
    obtain ⟨b₁, hrun, he⟩ := Op.run_exists (hfit op List.mem_cons_self) hfirst
    obtain ⟨b₂, hrest, hafter⟩ := ih (h.after he) (fun o ho => hfit o (List.mem_cons_of_mem _ ho)) hroom
    exact ⟨b₂, (run_cons_of_ok hrun).trans hrest, hafter⟩

/-- Without room, a history stops at the read that does not fit the counter, and nothing of what was
done before is lost. -/
theorem run_stops (h : Reflects b done) (hfit : ∀ op ∈ ops, op.Fits)
    (hcount : recorded done < wordLimit) (hroom : ¬ recorded (done ++ ops) < wordLimit) :
    ∃ before op after b', ops = before ++ op :: after ∧
      ops.forM Op.run b = .error .addOverflow b' ∧ Reflects b' (done ++ before) := by
  induction ops generalizing b done with
  | nil => rw [List.append_nil] at hroom; exact absurd hcount hroom
  | cons op ops ih =>
    by_cases hfirst : b.bytesRead + op.recorded < wordLimit
    · obtain ⟨b₁, hrun, he⟩ := Op.run_exists (hfit op List.mem_cons_self) hfirst
      have hnext : recorded (done ++ [op]) < wordLimit := by
        rw [h.bytesRead] at hfirst
        simpa [recorded] using hfirst
      rw [List.append_cons] at hroom
      obtain ⟨before, stopped, after, b₂, rfl, hrest, hafter⟩ :=
        ih (h.after he) (fun o ho => hfit o (List.mem_cons_of_mem _ ho)) hnext hroom
      refine ⟨op :: before, stopped, after, b₂, rfl, ?_, by rwa [List.append_cons]⟩
      exact (run_cons_of_ok hrun).trans hrest
    · have hstop := Op.run_stops (by rwa [h.bytesRead]) hfirst
      refine ⟨[], op, ops, b, rfl, ?_, by rwa [List.append_nil]⟩
      exact Stateful.bind_of_error hstop

end Reflects

/-! ## What a bank answers -/

/-- A bank answers as the flat map of a history. -/
structure Answers (b : Bank) (ops : List Op) : Prop where
  /-- A read yields the bytes most recently written, and zero where none was. -/
  readInto : ∀ addr len, AccessFits addr len →
    b.readInto addr len = .ok (Array.ofFn fun i : Fin len => flat ops (addr + i))
  /-- So does a read into a new buffer, whenever the buffer can exist. -/
  read : ∀ addr len, AccessFits addr len → b.read addr len =
    if maxBuffer < len then .error .bufferTooLarge
    else .ok (Array.ofFn fun i : Fin len => flat ops (addr + i))
  /-- A word is the two's complement of its four bytes, the least significant first. -/
  int32 : ∀ addr, AccessFits addr 4 → ∃ z, b.readInt32 addr = .ok z ∧
    z.toInt = Int.bmod (((flat ops addr).toNat + 0x100 * (flat ops (addr + 1)).toNat +
      0x10000 * (flat ops (addr + 2)).toNat + 0x1000000 * (flat ops (addr + 3)).toNat : Nat))
      0x100000000
  /-- Words that are read together are those that are read one by one. -/
  int32s : ∀ addr count, AccessFits addr (count * 4) → count * 4 ≤ maxBuffer →
    ∃ zs, b.readInt32s addr count = .ok zs ∧ zs.length = count ∧
      ∀ i z, zs[i]? = some z → b.readInt32 (addr + 4 * i) = .ok z
  /-- The word most recently written at an address is read there. -/
  latest : ∀ before op after addr z, ops = before ++ op :: after → op.wordAt? addr = some z →
    (∀ later ∈ after, ∀ k < 4, later.byteAt? (addr + k) = none) → b.readInt32 addr = .ok z
  /-- Reads change nothing. -/
  reading : ∀ op : Op, op.Reading → op.Fits → op.run b = .ok () b
  pageCount : b.pageCount = (pagesWritten ops).ncard
  bytesWritten : b.bytesWritten = (ops.map (·.data.length)).sum

theorem Reflects.int32At_latest {b : Bank} {before after : List Op} {op : Op} {addr : Nat} {z : Int32}
    (h : Reflects b (before ++ op :: after)) (hword : op.wordAt? addr = some z)
    (hafter : ∀ later ∈ after, ∀ k < 4, later.byteAt? (addr + k) = none) : b.int32At addr = z := by
  have hbyte : ∀ k v, k < 4 → (LittleEndian.bytes z.toUInt32)[k]? = some v →
      b.byteAt (addr + k) = v := by
    intro k v hk hv
    have hlast := lastWritten_of_untouched before
      ((Op.byteAt?_of_wordAt? hword hk).trans hv) fun later hlater => hafter later hlater k hk
    rw [h.byte, flat, hlast, Option.getD_some]
  rw [int32At, ← Nat.add_zero addr, hbyte 0 _ (by decide) rfl, Nat.add_zero,
    hbyte 1 _ (by decide) rfl, hbyte 2 _ (by decide) rfl, hbyte 3 _ (by decide) rfl,
    LittleEndian.word_bytes, Int32.toInt32_toUInt32]

theorem Reflects.pageCount_eq {b : Bank} {ops : List Op} (h : Reflects b ops) :
    b.pageCount = (pagesWritten ops).ncard := by
  have hkeys : pagesWritten ops = (b.pages.table.keys.toFinset : Set Nat) := by
    ext k
    rw [Finset.mem_coe, List.mem_toFinset, Std.HashMap.mem_keys, h.page]
  rw [hkeys, Set.ncard_coe_finset, List.toFinset_card_of_nodup Std.HashMap.nodup_keys,
    Std.HashMap.length_keys]
  rfl

theorem Reflects.answers {b : Bank} {ops : List Op} (h : Reflects b ops)
    (hfit : ∀ op ∈ ops, op.Fits) : Answers b ops where
  readInto addr len hlen := by
    rw [readInto_eq hlen]
    simp only [h.byte]
  read addr len hlen := by
    rw [read_eq hlen]
    simp only [h.byte]
  int32 addr haddr := ⟨_, readInt32_eq haddr, by rw [toInt_int32At]; simp only [h.byte]⟩
  int32s addr count hcount hbuffer := by
    refine ⟨_, readInt32s_eq hcount hbuffer, by simp, fun i z hz => ?_⟩
    obtain ⟨hi, rfl⟩ := List.getElem?_eq_some_iff.mp hz
    rw [List.length_map, List.length_range] at hi
    have hend : addr + count * 4 < wordLimit := hcount.resolve_left (by omega)
    rw [readInt32_eq (.inr (by omega)), List.getElem_map, List.getElem_range]
  latest before op after addr z hops hword hafter := by
    subst hops
    have hop : op.Fits := hfit op (List.mem_append_right _ List.mem_cons_self)
    rw [readInt32_eq (Op.fits_of_wordAt? hword hop), h.int32At_latest hword hafter]
  reading op hreading hop := Op.run_of_reading hreading hop
  pageCount := h.pageCount_eq
  bytesWritten := h.bytesWritten

/-- A bank refines a flat map of bytes. After any operations that fit, it answers as the bytes they
wrote, one by one, at their addresses. The operations finish exactly when the reads accounted for stay
below the last word; if not, those before the read that goes past it are kept. -/
theorem refines_flat_map (tier : Tier) (capacity : Option Nat) (ops : List Op)
    (hfit : ∀ op ∈ ops, op.Fits) :
    if recorded ops < wordLimit then
      ∃ b, ops.forM Op.run (empty tier capacity) = .ok () b ∧ Answers b ops
    else
      ∃ before op after b, ops = before ++ op :: after ∧
        ops.forM Op.run (empty tier capacity) = .error .addOverflow b ∧ Answers b before := by
  have hempty := reflects_empty tier capacity
  split
  · rename_i hroom
    obtain ⟨b, hrun, h⟩ := hempty.run_exists hfit hroom
    exact ⟨b, hrun, h.answers hfit⟩
  · rename_i hroom
    obtain ⟨before, op, after, b, rfl, hrun, h⟩ := hempty.run_stops hfit (by decide) hroom
    exact ⟨before, op, after, b, rfl, hrun,
      h.answers fun o ho => hfit o (List.mem_append_left _ ho)⟩

/-- A word over the end of a longer write, across a page boundary. -/
def crossing : List Op :=
  [.write 4094 [1, 2, 3, 4], .writeInt32 4095 (-2), .allocate "input" 4000 100, .countRead 4095 4,
    .clearRegions]

theorem refines_flat_map_crossing : (∀ op ∈ crossing, op.Fits) ∧
    ∃ b, crossing.forM Op.run (empty .mid none) = .ok () b ∧ Answers b crossing ∧
      b.readInto 4093 6 = .ok #[0, 1, 254, 255, 255, 255] ∧ b.readInt32 4095 = .ok (-2) ∧
      b.bytesWritten = 8 := by
  have hfit : ∀ op ∈ crossing, op.Fits := by
    simp [crossing, Op.Fits, AccessFits, wordLimit]
  have h := refines_flat_map .mid none crossing hfit
  rw [if_pos (by decide)] at h
  obtain ⟨b, hrun, hanswers⟩ := h
  refine ⟨hfit, b, hrun, hanswers, ?_, ?_, hanswers.bytesWritten⟩
  · rw [hanswers.readInto 4093 6 (.inr (by decide))]
    rfl
  · exact hanswers.latest [.write 4094 [1, 2, 3, 4]] _ _ 4095 (-2) rfl rfl (by decide)

end TileStream.Bank
