import Mathlib.Data.List.Forall2
import TileStream.Word

/-! # Steps of checked and stateful computations

A step that is known to finish is replaced by its result, and a finished
computation is taken apart into its steps. -/
namespace TileStream

namespace Unsigned

theorem add_of_lt {a b : Nat} (h : a + b < 0x10000000000000000) : add a b = .ok (a + b) :=
  if_pos h

theorem mul_of_lt {a b : Nat} (h : a * b < 0x10000000000000000) : mul a b = .ok (a * b) :=
  if_pos h

theorem mul_one_of_lt {a : Nat} (h : a < 0x10000000000000000) : mul a 1 = .ok a := by
  rw [mul_of_lt (by omega), Nat.mul_one]

theorem ceilDiv_of_pos {a b : Nat} (h : 0 < b) : ceilDiv a b = .ok ((a + b - 1) / b) :=
  if_neg (Nat.ne_of_gt h)

end Unsigned

namespace Signed

/-- The displacements of a size and of a product of sizes stay sizes. -/
theorem mul_of_lt {a b : Nat} (h : a * b < 0x8000000000000000) :
    mul (a : Int) (b : Int) = .ok ((a * b : Nat) : Int) := by
  have hrange : InRange ((a : Int) * (b : Int)) := by
    rw [← Int.natCast_mul]
    exact ⟨by omega, by omega⟩
  rw [mul, if_pos hrange, Int.natCast_mul]

theorem add_of_lt {a b : Nat} (h : a + b < 0x8000000000000000) :
    add (a : Int) (b : Int) = .ok ((a + b : Nat) : Int) := by
  have hrange : InRange ((a : Int) + (b : Int)) := ⟨by omega, by omega⟩
  rw [add, if_pos hrange, Int.natCast_add]

end Signed

theorem unsigned_natCast (n : Nat) : unsigned (n : Int) = n := by
  simp [unsigned]

/-- Going on from an address by signed arithmetic is going on by as much. -/
theorem unsigned_signed_add {a n : Nat} (h : a + n < wordLimit) : unsigned (signed a + n) = a + n := by
  unfold wordLimit at h
  unfold unsigned signed
  split <;> split <;> omega

namespace Checked

theorem ok_bind {α β : Type} (a : α) (f : α → Checked β) : (Except.ok a >>= f) = f a := rfl

/-- A finished computation is a finished first step and a finished rest. -/
theorem bind_eq_ok {α β : Type} {x : Checked α} {f : α → Checked β} {b : β} :
    (x >>= f) = .ok b ↔ ∃ a, x = .ok a ∧ f a = .ok b := by
  cases x with
  | ok a => exact ⟨fun h => ⟨a, rfl, h⟩, fun ⟨_, ha, h⟩ => by cases ha; exact h⟩
  | error e => exact ⟨fun h => (by cases h), fun ⟨_, ha, _⟩ => (by cases ha)⟩

theorem pure_eq_ok {α : Type} {a b : α} : (pure a : Checked α) = .ok b ↔ a = b :=
  ⟨fun h => Except.ok.inj h, fun h => h ▸ rfl⟩

/-- A computation gives a value of which `post` holds, or it stops with a fault that is allowed. -/
def Ends {α : Type} (fault : Fault → Prop) (post : α → Prop) : Checked α → Prop
  | .ok a => post a
  | .error f => fault f

section Ends

variable {α β : Type} {fault : Fault → Prop} {post : α → Prop}

theorem Ends.bind {x : Checked α} {f : α → Checked β} {goal : β → Prop} (h : Ends fault post x)
    (hrest : ∀ a, post a → Ends fault goal (f a)) : Ends fault goal (x >>= f) := by
  cases x with
  | ok a => exact hrest a h
  | error e => exact h

/-- A first step whose value is known hands it to the rest. -/
theorem Ends.bind_eq {x : Checked α} {f : α → Checked β} {goal : β → Prop} {a : α}
    (h : Ends fault (· = a) x) (hrest : Ends fault goal (f a)) : Ends fault goal (x >>= f) := by
  refine h.bind fun b hb => ?_
  rw [hb]
  exact hrest

theorem Ends.mono {fault' : Fault → Prop} {post' : α → Prop} {x : Checked α} (h : Ends fault post x)
    (hfault : ∀ f, fault f → fault' f) (hpost : ∀ a, post a → post' a) : Ends fault' post' x := by
  cases x with
  | ok a => exact hpost a h
  | error e => exact hfault e h

theorem Ends.of_eq {x : Checked α} {a : α} (h : Ends fault (· = a) x) (ha : post a) :
    Ends fault post x := by
  refine h.mono (fun _ => id) fun b hb => ?_
  rw [hb]
  exact ha

theorem Ends.of_ok {x : Checked α} {a : α} (hx : x = .ok a) (h : post a) : Ends fault post x := by
  rw [hx]
  exact h

/-- What holds at every end holds of the value. -/
theorem Ends.of_eq_ok {x : Checked α} {a : α} (h : Ends fault post x) (hx : x = .ok a) : post a := by
  rw [hx] at h
  exact h

/-- What holds of every value holds at every end, if any fault is allowed. -/
theorem ends_of_forall_ok {x : Checked α} (h : ∀ a, x = .ok a → post a) :
    Ends (fun _ => True) post x := by
  cases x with
  | ok a => exact h a rfl
  | error f => exact trivial

/-- Where no fault is allowed there is a value. -/
theorem Ends.ok_of_never {x : Checked α} (h : Ends fault post x) (hnever : ∀ f, ¬ fault f) :
    ∃ a, x = .ok a ∧ post a := by
  cases x with
  | ok a => exact ⟨a, rfl, h⟩
  | error f => exact absurd h (hnever f)

theorem Ends.discard {x : Checked α} (h : Ends fault post x) :
    Ends fault (fun _ => True) (discard x : Checked Unit) := by
  cases x with
  | ok a => exact trivial
  | error e => exact h

end Ends

/-! ## Lists of checked computations -/

section Lists

variable {α β : Type} {f : α → Checked β} {as : List α}

theorem mapM_eq_ok_iff {bs : List β} :
    as.mapM f = .ok bs ↔ List.Forall₂ (fun a b => f a = .ok b) as bs := by
  induction as generalizing bs with
  | nil =>
    rw [List.mapM_nil, List.forall₂_nil_left_iff]
    exact pure_eq_ok.trans eq_comm
  | cons a as ih =>
    rw [List.mapM_cons, bind_eq_ok, List.forall₂_cons_left_iff]
    constructor
    · rintro ⟨b, hb, h⟩
      obtain ⟨rest, hrest, h⟩ := bind_eq_ok.mp h
      exact ⟨b, rest, hb, ih.mp hrest, (pure_eq_ok.mp h).symm⟩
    · rintro ⟨b, rest, hb, hrest, rfl⟩
      exact ⟨b, hb, bind_eq_ok.mpr ⟨rest, ih.mpr hrest, rfl⟩⟩

/-- Where every element ends with a value of its own, the list ends with these values. -/
theorem mapM_ends_map {fault : Fault → Prop} {g : α → β} (h : ∀ a ∈ as, Ends fault (· = g a) (f a)) :
    Ends fault (· = as.map g) (as.mapM f) := by
  induction as with
  | nil => exact rfl
  | cons a as ih =>
    rw [List.mapM_cons]
    refine (h a List.mem_cons_self).bind_eq ?_
    exact (ih fun a' ha' => h a' (List.mem_cons_of_mem a ha')).bind_eq rfl

/-- A search through values that all exist looks at them one after the other. -/
theorem anyM_exists {found : α → Checked Bool} (h : ∀ a ∈ as, ∃ b, found a = .ok b) :
    ∃ b, as.anyM found = .ok b ∧ (b = true ↔ ∃ a ∈ as, found a = .ok true) := by
  induction as with
  | nil => exact ⟨false, rfl, by simp⟩
  | cons a as ih =>
    obtain ⟨b, hb, hiff⟩ := ih fun a' ha' => h a' (List.mem_cons_of_mem a ha')
    obtain ⟨first, hfirst⟩ := h a List.mem_cons_self
    rw [List.anyM, hfirst, ok_bind]
    cases first with
    | true => exact ⟨true, rfl, by simp [hfirst]⟩
    | false => exact ⟨b, hb, by simp [hfirst, hiff]⟩

theorem mapM_ends {fault : Fault → Prop} (h : ∀ a ∈ as, Ends fault (fun _ => True) (f a)) :
    Ends fault (fun _ => True) (as.mapM f) := by
  induction as with
  | nil => exact trivial
  | cons a as ih =>
    rw [List.mapM_cons]
    refine (h a List.mem_cons_self).bind fun b _ => ?_
    exact (ih fun a' ha' => h a' (List.mem_cons_of_mem a ha')).bind fun _ _ => trivial

end Lists

end Checked

/-! ## Arithmetic that may overflow -/

namespace Unsigned

open Checked

variable {fault : Fault → Prop} {a b : Nat}

theorem add_ends (h : a + b < wordLimit ∨ fault .addOverflow) : Ends fault (· = a + b) (add a b) := by
  by_cases hlt : a + b < wordLimit
  · exact .of_ok (add_of_lt hlt) rfl
  · rw [add, if_neg hlt]
    exact h.resolve_left hlt

theorem mul_ends (h : a * b < wordLimit ∨ fault .mulOverflow) : Ends fault (· = a * b) (mul a b) := by
  by_cases hlt : a * b < wordLimit
  · exact .of_ok (mul_of_lt hlt) rfl
  · rw [mul, if_neg hlt]
    exact h.resolve_left hlt

theorem roundUp4_ends (h : a + 3 < wordLimit ∨ fault .addOverflow) :
    Ends fault (· = (a + 3) / 4 * 4) (roundUp4 a) := by
  have hsplit := Nat.div_add_mod a 4
  unfold roundUp4
  by_cases haligned : a % 4 = 0
  · rw [if_pos haligned]
    show a = _
    omega
  · rw [if_neg haligned]
    exact (add_ends (h.imp_left fun hlt => by omega)).mono (fun _ => id) fun n hn => by omega

end Unsigned

theorem Signed.add_ends {fault : Fault → Prop} {a b : Int}
    (h : Signed.InRange (a + b) ∨ fault .addOverflow) :
    Checked.Ends fault (fun z => z = a + b ∧ Signed.InRange z) (Signed.add a b) := by
  by_cases hin : Signed.InRange (a + b)
  · exact .of_ok (Signed.add_eq_ok_iff.mpr ⟨hin, rfl⟩) ⟨rfl, hin⟩
  · rw [Signed.add, if_neg hin]
    exact h.resolve_left hin

theorem Signed.sub_ends {fault : Fault → Prop} {a b : Int}
    (h : Signed.InRange (a - b) ∨ fault .subOverflow) :
    Checked.Ends fault (fun z => z = a - b ∧ Signed.InRange z) (Signed.sub a b) := by
  by_cases hin : Signed.InRange (a - b)
  · exact .of_ok (Signed.sub_eq_ok_iff.mpr ⟨hin, rfl⟩) ⟨rfl, hin⟩
  · rw [Signed.sub, if_neg hin]
    exact h.resolve_left hin

/-! ## Refusals -/

namespace Refusal

variable {ε α β : Type}

/-- A computation that accepts is an accepting first step and an accepting rest. -/
theorem bind_eq_ok {x : ExceptT ε Checked α} {f : α → ExceptT ε Checked β} {b : β} :
    (x >>= f).run = .ok (.ok b) ↔ ∃ a, x.run = .ok (.ok a) ∧ (f a).run = .ok (.ok b) := by
  show (ExceptT.bind x f).run = _ ↔ _
  unfold ExceptT.bind
  rw [ExceptT.run_mk, Checked.bind_eq_ok]
  constructor
  · rintro ⟨a | a, hx, hf⟩
    · cases hf
    · exact ⟨a, hx, hf⟩
  · rintro ⟨a, hx, hf⟩
    exact ⟨.ok a, hx, hf⟩

theorem lift_eq_ok {x : Checked α} {a : α} :
    (liftM x : ExceptT ε Checked α).run = .ok (.ok a) ↔ x = .ok a := by
  cases x with
  | ok b =>
    show Except.ok (Except.ok b) = .ok (.ok a) ↔ _
    simp
  | error e => exact ⟨fun h => (by cases h), fun h => (by cases h)⟩

theorem throw_ne_ok {e : ε} {a : α} :
    ¬ (throw e : ExceptT ε Checked α).run = .ok (.ok a) := by
  intro h
  cases h

/-- A computation that stops does so in its first step, or accepts there and stops in the rest. -/
theorem bind_eq_error {x : ExceptT ε Checked α} {f : α → ExceptT ε Checked β} {e : Fault} :
    (x >>= f).run = .error e ↔ x.run = .error e ∨ ∃ a, x.run = .ok (.ok a) ∧ (f a).run = .error e := by
  show Except.bind x.run (ExceptT.bindCont f) = _ ↔ _
  cases x.run with
  | error e' =>
    show Except.error e' = Except.error e ↔ _
    simp
  | ok r =>
    cases r with
    | error e' =>
      show Except.ok (Except.error e') = Except.error e ↔ _
      simp
    | ok a =>
      show (f a).run = Except.error e ↔ _
      simp

/-- A computation accepts with a value of which `post` holds, or refuses with an error of which `refused`
holds, or it stops with a fault that is allowed. -/
def Ends (fault : Fault → Prop) (refused : ε → Prop) (post : α → Prop) (x : ExceptT ε Checked α) :
    Prop :=
  Checked.Ends fault (fun | .ok a => post a | .error e => refused e) x.run

section Ends

variable {fault : Fault → Prop} {refused : ε → Prop} {post : α → Prop} {goal : β → Prop}

theorem Ends.bind {x : ExceptT ε Checked α} {f : α → ExceptT ε Checked β}
    (h : Ends fault refused post x) (hrest : ∀ a, post a → Ends fault refused goal (f a)) :
    Ends fault refused goal (x >>= f) := by
  refine Checked.Ends.bind h fun r hr => ?_
  cases r with
  | ok a => exact hrest a hr
  | error e => exact hr

/-- What holds at every end holds of an accepted value. -/
theorem Ends.of_eq_ok {x : ExceptT ε Checked α} {a : α} (h : Ends fault refused post x)
    (hx : x.run = .ok (.ok a)) : post a := by
  unfold Ends at h
  rw [hx] at h
  exact h

/-- What holds at every end holds of an error that was refused with. -/
theorem Ends.of_eq_refused {x : ExceptT ε Checked α} {e : ε} (h : Ends fault refused post x)
    (hx : x.run = .ok (.error e)) : refused e := by
  unfold Ends at h
  rw [hx] at h
  exact h

theorem Ends.mono_refused {refused' : ε → Prop} {x : ExceptT ε Checked α}
    (h : Ends fault refused post x) (hrefused : ∀ e, refused e → refused' e) :
    Ends fault refused' post x := by
  refine Checked.Ends.mono h (fun _ => id) fun r hr => ?_
  cases r with
  | ok a => exact hr
  | error e => exact hrefused e hr

theorem ends_lift {x : Checked α} (h : Checked.Ends fault post x) :
    Ends fault refused post (liftM x : ExceptT ε Checked α) := by
  cases x with
  | ok a => exact h
  | error e => exact h

theorem ends_adapt {ε' : Type} {f : ε → ε'} {refused' : ε' → Prop} {x : ExceptT ε Checked α}
    (h : Ends fault refused post x) (hf : ∀ e, refused e → refused' (f e)) :
    Ends fault refused' post (x.adapt f) := by
  unfold Ends at *
  show Checked.Ends fault _ (Except.mapError f <$> x.run)
  cases hx : x.run with
  | error e =>
    rw [hx] at h
    exact h
  | ok r =>
    rw [hx] at h
    cases r with
    | ok a => exact h
    | error e => exact hf e h

end Ends

/-- A check that accepts has found nothing to refuse. -/
theorem check_eq_ok {c : Prop} [Decidable c] {e : ε} {f : Unit → ExceptT ε Checked β} {b : β} :
    (if c then (throw e : ExceptT ε Checked Unit) >>= f else f ()).run = .ok (.ok b) ↔
      ¬ c ∧ (f ()).run = .ok (.ok b) := by
  by_cases hc : c
  · rw [if_pos hc, bind_eq_ok]
    exact ⟨fun ⟨_, h, _⟩ => absurd h throw_ne_ok, fun h => absurd hc h.1⟩
  · rw [if_neg hc]
    exact ⟨fun h => ⟨hc, h⟩, fun h => h.2⟩

theorem adapt_eq_ok {ε' : Type} {f : ε → ε'} {x : ExceptT ε Checked α} {a : α} :
    (x.adapt f).run = .ok (.ok a) ↔ x.run = .ok (.ok a) := by
  show Except.mapError f <$> x.run = _ ↔ _
  cases x.run with
  | error e => exact ⟨fun h => (by cases h), fun h => (by cases h)⟩
  | ok r =>
    cases r with
    | error e => exact ⟨fun h => (by cases h), fun h => (by cases h)⟩
    | ok b =>
      show Except.ok (Except.ok b) = .ok (.ok a) ↔ _
      simp

end Refusal

namespace Stateful

theorem bind_of_ok {σ α β : Type} {x : Stateful σ α} {f : α → Stateful σ β} {s s' : σ} {a : α}
    (h : x s = .ok a s') : (x >>= f) s = f a s' := by
  rw [bind_apply, h]

theorem bind_of_error {σ α β : Type} {x : Stateful σ α} {f : α → Stateful σ β} {s s' : σ}
    {e : Fault} (h : x s = .error e s') : (x >>= f) s = .error e s' := by
  rw [bind_apply, h]

/-- A finished computation is a finished first step and a finished rest. -/
theorem bind_eq_ok {σ α β : Type} {x : Stateful σ α} {f : α → Stateful σ β} {s t : σ} {b : β} :
    (x >>= f) s = .ok b t ↔ ∃ a s', x s = .ok a s' ∧ f a s' = .ok b t := by
  rw [bind_apply]
  cases hx : x s with
  | ok a s' =>
    refine ⟨fun h => ⟨a, s', rfl, h⟩, ?_⟩
    rintro ⟨_, _, ha, h⟩
    cases ha
    exact h
  | error e s' => exact ⟨fun h => (by cases h), fun ⟨_, _, ha, _⟩ => (by cases ha)⟩

/-- A finished computation that begins with a checked one. -/
theorem lift_bind_eq_ok {σ α β : Type} {x : Checked α} {f : α → Stateful σ β} {s t : σ} {b : β} :
    ((liftM x : Stateful σ α) >>= f) s = .ok b t ↔ ∃ a, x = .ok a ∧ f a s = .ok b t := by
  cases x with
  | ok a =>
    refine ⟨fun h => ⟨a, rfl, h⟩, ?_⟩
    rintro ⟨_, ha, h⟩
    cases ha
    exact h
  | error e => exact ⟨fun h => (by cases h), fun ⟨_, ha, _⟩ => (by cases ha)⟩

/-- A computation ends with a value and a state of which `post` holds, or it stops with a fault that is
allowed. -/
def Ends {σ α : Type} (fault : Fault → Prop) (post : α → σ → Prop) : EStateM.Result Fault σ α → Prop
  | .ok a s => post a s
  | .error f _ => fault f

section Ends

variable {σ α β : Type} {fault fault' : Fault → Prop} {post post' : α → σ → Prop}

theorem Ends.mono {r : EStateM.Result Fault σ α} (h : Ends fault post r)
    (hfault : ∀ f, fault f → fault' f) (hpost : ∀ a s, post a s → post' a s) :
    Ends fault' post' r := by
  cases r with
  | ok a s => exact hpost a s h
  | error f s => exact hfault f h

theorem Ends.bind {x : Stateful σ α} {f : α → Stateful σ β} {s : σ} {goal : β → σ → Prop}
    (h : Ends fault post (x s)) (hrest : ∀ a s', post a s' → Ends fault goal (f a s')) :
    Ends fault goal ((x >>= f) s) := by
  rw [bind_apply]
  cases hx : x s with
  | ok a s' =>
    rw [hx] at h
    exact hrest a s' h
  | error e s' =>
    rw [hx] at h
    exact h

theorem Ends.of_ok {r : EStateM.Result Fault σ α} {a : α} {s : σ} (hr : r = .ok a s)
    (h : post a s) : Ends fault post r := by
  rw [hr]
  exact h

/-- Where no fault is allowed there is a value. -/
theorem Ends.ok_of_never {r : EStateM.Result Fault σ α} (h : Ends fault post r)
    (hnever : ∀ f, ¬ fault f) : ∃ a s, r = .ok a s ∧ post a s := by
  cases r with
  | ok a s => exact ⟨a, s, rfl, h⟩
  | error f s => exact absurd h (hnever f)

end Ends

theorem discard_of_ok {σ α : Type} {x : Stateful σ α} {s s' : σ} {a : α} (h : x s = .ok a s') :
    (discard x : Stateful σ Unit) s = .ok () s' := by
  show EStateM.map _ x s = _
  rw [EStateM.map, h]

theorem discard_eq_ok {σ α : Type} {x : Stateful σ α} {s s' : σ} :
    (discard x : Stateful σ Unit) s = .ok () s' ↔ ∃ a, x s = .ok a s' := by
  show EStateM.map _ x s = _ ↔ _
  unfold EStateM.map
  cases x s <;> simp

theorem final_of_ok {σ α : Type} {x : Stateful σ α} {s s' : σ} {a : α} (h : x s = .ok a s') :
    x.final s = s' := by
  rw [final, h]

theorem get_apply {σ : Type} (s : σ) : (get : Stateful σ σ) s = .ok s s := rfl

theorem modify_apply {σ : Type} (f : σ → σ) (s : σ) :
    (modify f : Stateful σ Unit) s = .ok () (f s) := rfl

theorem lift_ok {σ α : Type} (a : α) (s : σ) :
    (liftM (Except.ok a : Checked α) : Stateful σ α) s = .ok a s := rfl

instance {σ : Type} : LawfulMonadLift Checked (Stateful σ) where
  monadLift_pure _ := rfl
  monadLift_bind x f := by
    funext s
    cases x with
    | ok a => rfl
    | error e => rfl

end Stateful

end TileStream
