import TileStream.Proofs.Grid.Odometer
import TileStream.Proofs.Memory.Image
import TileStream.Transfer.Move

/-! # The runs of a transfer

A shape is addressed from a base when none of its run addresses overflows. Then
visiting the runs is a fold over the addresses `Shape.runAt`, and gathering and
spreading move byte `p` of the packed side from or to `Shape.byteAddress`. -/
namespace TileStream

namespace Shape

/-- The start address of run `j`, as the machine computes it. -/
def runAt (s : Shape) (base j : Nat) : Nat :=
  unsigned (signed base + ((j % s.middle.steps : Nat) * s.middle.stride +
    (j / s.middle.steps : Nat) * s.outer.stride))

/-- The bytes of the whole transfer. -/
def byteCount (s : Shape) : Nat := s.runBytes * s.runs

/-- The strided address of packed byte `p`. -/
def byteAddress (s : Shape) (base p : Nat) : Nat :=
  s.runAt base (p / s.runBytes) + p % s.runBytes

/-- No run address overflows, and no run reaches past the last address. -/
def Addressed (s : Shape) (base : Nat) : Prop :=
  ∀ j < s.runs, ∃ a, s.address base (j % s.middle.steps) (j / s.middle.steps) = .ok a ∧
    AccessFits a s.runBytes

theorem address_eq {s : Shape} {base m o a : Nat} (h : s.address base m o = .ok a) :
    a = unsigned (signed base + ((m : Int) * s.middle.stride + (o : Int) * s.outer.stride)) := by
  unfold address at h
  cases hm : Signed.mul (m : Int) s.middle.stride with
  | error e => rw [hm] at h; cases h
  | ok middle =>
    cases ho : Signed.mul (o : Int) s.outer.stride with
    | error e => rw [hm, ho] at h; cases h
    | ok outer =>
      cases hs : Signed.add middle outer with
      | error e => simp only [hm, ho, hs, bind, Except.bind] at h; cases h
      | ok offset =>
        cases ha : Signed.add (signed base) offset with
        | error e => simp only [hm, ho, hs, ha, bind, Except.bind] at h; cases h
        | ok z =>
          simp only [hm, ho, hs, ha, bind, Except.bind, pure, Except.pure, Except.ok.injEq] at h
          rw [Signed.mul_eq_ok_iff] at hm ho
          rw [Signed.add_eq_ok_iff] at hs ha
          rw [← h, ← ha.2, ← hs.2, ← hm.2, ← ho.2]

theorem Addressed.address {s : Shape} {base : Nat} (h : s.Addressed base) {j : Nat}
    (hj : j < s.runs) :
    s.address base (j % s.middle.steps) (j / s.middle.steps) = .ok (s.runAt base j) := by
  obtain ⟨a, ha, _⟩ := h j hj
  rw [ha, address_eq ha, runAt]

theorem Addressed.fits {s : Shape} {base : Nat} (h : s.Addressed base) {j : Nat}
    (hj : j < s.runs) : AccessFits (s.runAt base j) s.runBytes := by
  obtain ⟨a, ha, hfits⟩ := h j hj
  rwa [address_eq ha] at hfits

theorem byteAddress_run (s : Shape) (base j b : Nat) (hb : b < s.runBytes) :
    s.byteAddress base (j * s.runBytes + b) = s.runAt base j + b := by
  have hpos : 0 < s.runBytes := Nat.zero_lt_of_lt hb
  rw [byteAddress, Nat.mul_comm, Nat.mul_add_div hpos, Nat.div_eq_of_lt hb, Nat.add_zero,
    Nat.mul_add_mod, Nat.mod_eq_of_lt hb]

end Shape

/-! ## Visiting -/

namespace RunCursor

def atRun (base : Nat) (s : Shape) (j : Nat) : RunCursor :=
  ⟨base, s, j % s.middle.steps, j / s.middle.steps, j⟩

theorem start_eq (base : Nat) (s : Shape) : start base s = atRun base s 0 := by
  simp [start, atRun]

theorem advance_atRun (base : Nat) (s : Shape) (j : Nat) :
    (atRun base s j).advance = atRun base s (j + 1) := by
  rcases Grid.succ_div_mod s.middle.steps_pos j with ⟨hlt, hq, hr⟩ | ⟨hfull, hq, hr⟩
  · simp only [advance, atRun, hq, hr]
    exact if_pos hlt
  · simp only [advance, atRun, hq, hr]
    exact if_neg (by omega)

theorem next_atRun_eq_bind (base : Nat) {s : Shape} {j : Nat} (hj : j < s.runs) :
    (atRun base s j).next = do
      let a ← s.address base (j % s.middle.steps) (j / s.middle.steps)
      return some (a, atRun base s (j + 1)) := by
  have hgo : (atRun base s j).isFinished = false := decide_eq_false (Nat.not_le_of_lt hj)
  simp only [next, hgo, Bool.false_eq_true, if_false, advance_atRun]
  rfl

theorem next_atRun {base : Nat} {s : Shape} (h : s.Addressed base) {j : Nat} (hj : j < s.runs) :
    (atRun base s j).next = .ok (some (s.runAt base j, atRun base s (j + 1))) := by
  rw [next_atRun_eq_bind base hj, h.address hj]
  rfl

/-- What holds of the address of every run holds of every address that is produced. -/
theorem take_ends {fault : Fault → Prop} {post : Nat → Prop} {base : Nat} {s : Shape}
    (h : ∀ j < s.runs, ∀ x, s.address base (j % s.middle.steps) (j / s.middle.steps) = x →
      Checked.Ends fault post x) {count j : Nat}
    (hj : j + count ≤ s.runs) : Checked.Ends fault (fun addrs => addrs.length = count ∧
      ∀ a ∈ addrs, post a) ((atRun base s j).take count) := by
  induction count generalizing j with
  | zero => exact ⟨rfl, nofun⟩
  | succ count ih =>
    rw [take, next_atRun_eq_bind base (by omega), bind_assoc]
    refine (h j (by omega) _ rfl).bind fun a ha => ?_
    refine (ih (j := j + 1) (by omega)).bind fun rest ⟨hlength, hrest⟩ => ?_
    exact ⟨congrArg Nat.succ hlength, List.forall_mem_cons.mpr ⟨ha, hrest⟩⟩

/-- Where the address of every run is known, so are those that are produced. -/
theorem take_map_ends {fault : Fault → Prop} {base : Nat} {s : Shape} {addrAt : Nat → Nat}
    (h : ∀ j < s.runs, Checked.Ends fault (· = addrAt j)
      (s.address base (j % s.middle.steps) (j / s.middle.steps)))
    {count j : Nat} (hj : j + count ≤ s.runs) :
    Checked.Ends fault (· = (List.range' j count).map addrAt) ((atRun base s j).take count) := by
  induction count generalizing j with
  | zero => exact rfl
  | succ count ih =>
    rw [take, next_atRun_eq_bind base (by omega), bind_assoc]
    refine (h j (by omega)).bind_eq ?_
    exact (ih (by omega)).bind_eq rfl

theorem visit_atRun {m : Type → Type} [Monad m] [LawfulMonad m] [MonadLiftT Checked m]
    [LawfulMonadLiftT Checked m] {α : Type} (f : α → Nat → m α) {base : Nat} {s : Shape}
    (h : s.Addressed base) :
    ∀ (count j : Nat) (a : α), j + count ≤ s.runs →
      visit f count (atRun base s j) a =
        (List.range' j count).foldlM (fun acc j => f acc (s.runAt base j)) a
  | 0, _, _, _ => rfl
  | count + 1, j, a, hj => by
    rw [visit, next_atRun h (by omega)]
    have hlift : (liftM (Except.ok (some (s.runAt base j, atRun base s (j + 1))) :
        Checked (Option (Nat × RunCursor))) : m _) = pure _ := monadLift_pure _
    rw [hlift, pure_bind, List.range'_succ, List.foldlM_cons]
    refine bind_congr fun b => ?_
    exact visit_atRun f h count (j + 1) b (by omega)

theorem visit_start {m : Type → Type} [Monad m] [LawfulMonad m] [MonadLiftT Checked m]
    [LawfulMonadLiftT Checked m] {α : Type} (f : α → Nat → m α) {base : Nat} {s : Shape}
    (h : s.Addressed base) (a : α) :
    visit f s.runs (start base s) a =
      (List.range s.runs).foldlM (fun acc j => f acc (s.runAt base j)) a := by
  rw [start_eq, visit_atRun f h _ _ _ (Nat.le_of_eq (Nat.zero_add _)), List.range_eq_range']

/-- By induction on the runs that are left: a visit that finishes has computed every address. -/
theorem visit_inv {α : Type} {f : α → Nat → Checked α} {base : Nat} {s : Shape} :
    ∀ {count j : Nat} {a r : α}, j + count ≤ s.runs → visit f count (atRun base s j) a = .ok r →
      ∀ i, j ≤ i → i < j + count → ∃ x y addr,
        s.address base (i % s.middle.steps) (i / s.middle.steps) = .ok addr ∧ f x addr = .ok y
  | 0, _, _, _, _, _, i, hlo, hhi => by omega
  | count + 1, j, a, r, hj, h, i, hlo, hhi => by
    rw [visit, next_atRun_eq_bind base (by omega)] at h
    obtain ⟨next, hnext, h⟩ := Checked.bind_eq_ok.mp h
    obtain ⟨addr, haddr, hsome⟩ := Checked.bind_eq_ok.mp hnext
    cases hsome
    obtain ⟨y, hfirst, hrest⟩ := Checked.bind_eq_ok.mp h
    rcases Nat.eq_or_lt_of_le hlo with rfl | hlt
    · exact ⟨a, y, addr, haddr, hfirst⟩
    · exact visit_inv (by omega) hrest i hlt (by omega)

end RunCursor

/-! ## Gathering and spreading -/

namespace Bank

/-- Gathering packs byte `p` from its strided address. -/
theorem gather_eq {b : Bank} {base : Nat} {s : Shape} (h : s.Addressed base) :
    ∃ packed, b.gather base s = .ok packed ∧
      packed.toList = (List.range s.byteCount).map fun p => b.byteAt (s.byteAddress base p) := by
  have hread (j : Nat) (hj : j < s.runs) (acc : Array UInt8) :
      (do return acc ++ (← b.readInto (s.runAt base j) s.runBytes) : Checked (Array UInt8)) =
        .ok (acc ++ b.pages.read (s.runAt base j) s.runBytes) := by
    rw [readInto_eq_ok_iff.mpr ⟨h.fits hj, rfl⟩]
    rfl
  have hfold : ∀ n ≤ s.runs, ∃ packed,
      (List.range n).foldlM (fun acc j => (do
        return acc ++ (← b.readInto (s.runAt base j) s.runBytes) : Checked (Array UInt8))) #[] =
        .ok packed ∧
      packed.toList =
        (List.range (s.runBytes * n)).map fun p => b.byteAt (s.byteAddress base p) := by
    intro n
    induction n with
    | zero => exact fun _ => ⟨#[], rfl, by simp⟩
    | succ n ih =>
      intro hn
      obtain ⟨packed, hok, hlist⟩ := ih (by omega)
      refine ⟨packed ++ b.pages.read (s.runAt base n) s.runBytes, ?_, ?_⟩
      · rw [List.range_succ, List.foldlM_append, hok, Checked.ok_bind, List.foldlM_cons,
          hread n (by omega), Checked.ok_bind]
        rfl
      · rw [Array.toList_append, hlist, Nat.mul_succ, List.range_add, List.map_append,
          List.map_map]
        congr 1
        apply List.ext_getElem (by simp)
        intro i hi hi'
        have hlt : i < s.runBytes := by simpa using hi
        simp only [Array.getElem_toList, Pages.getElem_read, List.getElem_map, List.getElem_range,
          Function.comp_apply]
        rw [Nat.mul_comm s.runBytes n, s.byteAddress_run base n i hlt]
        rfl
  obtain ⟨packed, hok, hlist⟩ := hfold s.runs (Nat.le_refl _)
  exact ⟨packed, by rw [gather, RunCursor.visit_start _ h]; exact hok, hlist⟩

/-- What has been gathered could be addressed. -/
theorem addressed_of_gather {b : Bank} {base : Nat} {s : Shape} {packed : Array UInt8}
    (h : b.gather base s = .ok packed) : s.Addressed base := by
  intro j hj
  rw [gather, RunCursor.start_eq] at h
  obtain ⟨x, y, addr, haddr, hread⟩ :=
    RunCursor.visit_inv (Nat.le_of_eq (Nat.zero_add _)) h j (Nat.zero_le j) (by omega)
  obtain ⟨bytes, hbytes, -⟩ := Checked.bind_eq_ok.mp hread
  exact ⟨addr, haddr, (readInto_eq_ok_iff.mp hbytes).1⟩

end Bank

end TileStream
