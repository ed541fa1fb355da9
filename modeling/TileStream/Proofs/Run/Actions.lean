import TileStream.Run.Program

/-! # Lists of actions

What a list of actions submits, and which of the submitted transfers it waits
for. The lemmas go by the three ways in which a unit writes actions down: submit
some transfers, wait for some, or `bring` them, which is both. -/
namespace TileStream

/-- The progress after `n` more transfers. -/
def Progress.later (p : Progress) (n : Nat) : Progress := { p with submitted := p.submitted + n }

/-- Submit transfers, numbered from `n` on, and wait for all of them. -/
def bring (n : Nat) (ds : List Descriptor) : List Action :=
  ds.map .submit ++ (List.range' n ds.length).map .await

def submissions (as : List Action) : List Descriptor :=
  as.filterMap fun
    | .submit d => some d
    | _ => none

/-- A transfer submitted under a number from `n` on is waited for later, or carried over. -/
def Kept (carry : List Nat) : Nat → List Action → Prop
  | _, [] => True
  | n, .submit _ :: rest => (n ∈ carry ∨ .await n ∈ rest) ∧ Kept carry (n + 1) rest
  | n, _ :: rest => Kept carry n rest

/-- Actions that only submit and wait. -/
def Plain (as : List Action) : Prop := ∀ a ∈ as, (∃ d, a = .submit d) ∨ ∃ n, a = .await n

theorem plain_append {as bs : List Action} (ha : Plain as) (hb : Plain bs) : Plain (as ++ bs) := by
  intro a hmem
  rcases List.mem_append.mp hmem with h | h
  · exact ha a h
  · exact hb a h

theorem plain_submits (ds : List Descriptor) : Plain (ds.map .submit) := by
  intro a hmem
  obtain ⟨d, -, rfl⟩ := List.mem_map.mp hmem
  exact .inl ⟨d, rfl⟩

theorem plain_awaits (ns : List Nat) : Plain (ns.map .await) := by
  intro a hmem
  obtain ⟨n, -, rfl⟩ := List.mem_map.mp hmem
  exact .inr ⟨n, rfl⟩

theorem plain_bring (n : Nat) (ds : List Descriptor) : Plain (bring n ds) :=
  plain_append (plain_submits ds) (plain_awaits _)

theorem submissions_append (as bs : List Action) :
    submissions (as ++ bs) = submissions as ++ submissions bs := List.filterMap_append

theorem submissions_submits (ds : List Descriptor) :
    submissions (ds.map .submit) = ds := by
  induction ds with
  | nil => rfl
  | cons d ds ih => exact congrArg (d :: ·) ih

theorem submissions_awaits (ns : List Nat) : submissions (ns.map .await) = [] := by
  induction ns with
  | nil => rfl
  | cons n ns ih => exact ih

theorem submissions_bring (n : Nat) (ds : List Descriptor) : submissions (bring n ds) = ds := by
  rw [bring, submissions_append, submissions_submits, submissions_awaits, List.append_nil]

theorem kept_submits {carry : List Nat} {rest : List Action} (ds : List Descriptor) {n : Nat}
    (hkept : ∀ m, n ≤ m → m < n + ds.length → m ∈ carry ∨ .await m ∈ rest)
    (hrest : Kept carry (n + ds.length) rest) : Kept carry n (ds.map .submit ++ rest) := by
  induction ds generalizing n with
  | nil => exact hrest
  | cons d ds ih =>
    rw [List.length_cons] at hkept hrest
    refine ⟨?_, ih (fun m hm hlt => hkept m (by omega) (by omega)) (by
      rw [show n + 1 + ds.length = n + (ds.length + 1) by omega]; exact hrest)⟩
    exact (hkept n (Nat.le_refl n) (by omega)).imp_right (List.mem_append_right _)

theorem kept_awaits {carry : List Nat} {rest : List Action} (ns : List Nat) {n : Nat}
    (hrest : Kept carry n rest) : Kept carry n (ns.map .await ++ rest) := by
  induction ns with
  | nil => exact hrest
  | cons m ns ih => exact ih

theorem kept_only_awaits (carry : List Nat) (n : Nat) (ns : List Nat) :
    Kept carry n (ns.map .await) := by
  induction ns with
  | nil => trivial
  | cons m ns ih => exact ih

theorem kept_bring {carry : List Nat} {rest : List Action} (ds : List Descriptor) {n : Nat}
    (hrest : Kept carry (n + ds.length) rest) : Kept carry n (bring n ds ++ rest) := by
  rw [bring, List.append_assoc]
  refine kept_submits ds (fun m hm hlt => .inr ?_) (kept_awaits _ hrest)
  refine List.mem_append_left _ (List.mem_map_of_mem ?_)
  rw [List.mem_range'_1]
  exact ⟨hm, hlt⟩

theorem kept_only_bring (carry : List Nat) (n : Nat) (ds : List Descriptor) :
    Kept carry n (bring n ds) := by
  rw [← List.append_nil (bring n ds)]
  exact kept_bring ds trivial

end TileStream
