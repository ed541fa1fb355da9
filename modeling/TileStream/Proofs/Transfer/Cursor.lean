import TileStream.Proofs.Transfer.Shares

/-! # The cursor in closed form

A cursor counts in two digits which runs it has produced, and computes each address
from them. After `j` calls it stands at run `min j runs` and its counters are the
digits of that number, so that call `j` answers with the address of run `j`, or with
nothing once all runs are done. `Yielded` says the same without the cursor's digits. -/
namespace TileStream

theorem Dimension.steps_lt {d : Dimension} (h : d.size < 0x100000000) : d.steps < 0x100000000 := by
  unfold steps
  split
  · simp
  · exact h

namespace Shape

variable {s : Shape} {base : Nat}

/-- What call `j` for an address answers. -/
def answer (s : Shape) (base j : Nat) : Option Nat :=
  if j < s.runs then some (s.runAddress base j).toNat else none

theorem runs_lt (hmiddle : s.middle.size < 0x100000000) (houter : s.outer.size < 0x100000000) :
    s.runs < wordLimit :=
  Nat.mul_lt_mul'' (Dimension.steps_lt hmiddle) (Dimension.steps_lt houter)

/-- As many calls find an address as there are runs, and no more. -/
theorem countP_answer (s : Shape) (base count : Nat) :
    ((List.range count).map (s.answer base)).countP Option.isSome = min count s.runs := by
  induction count with
  | zero => simp
  | succ count ih =>
    rw [List.range_succ, List.map_append, List.countP_append, ih, List.map_singleton,
      List.countP_singleton, answer]
    by_cases hcount : count < s.runs
    · rw [if_pos hcount, Nat.min_eq_left (Nat.le_of_lt hcount), Nat.min_eq_left hcount]
      rfl
    · have hge := Nat.not_lt.mp hcount
      rw [if_neg hcount, Nat.min_eq_right hge, Nat.min_eq_right (Nat.le_succ_of_le hge)]
      rfl

end Shape

namespace RunCursor

variable {s : Shape} {base : Nat}

/-- The cursor after `j` calls. -/
def afterCalls (base : Nat) (s : Shape) (j : Nat) : RunCursor := atRun base s (min j s.runs)

theorem next_end (base : Nat) (s : Shape) : (atRun base s s.runs).next = .ok none := by
  have hdone : (atRun base s s.runs).isFinished = true := decide_eq_true (Nat.le_refl _)
  simp only [next, hdone, if_true]
  rfl

theorem call_afterCalls (h : s.InLowerHalf base) (j : Nat) :
    (afterCalls base s j).call = .ok (s.answer base j, afterCalls base s (j + 1)) := by
  rcases Nat.lt_or_ge j s.runs with hj | hj
  · rw [afterCalls, afterCalls, Nat.min_eq_left (Nat.le_of_lt hj), Nat.min_eq_left hj, call,
      next_atRun_eq_bind base hj, h.address hj, Shape.answer, if_pos hj]
    rfl
  · -- past the last run neither the cursor nor the minimum moves on
    rw [afterCalls, afterCalls, Nat.min_eq_right hj, Nat.min_eq_right (Nat.le_succ_of_le hj), call,
      next_end, Shape.answer, if_neg (Nat.not_lt.mpr hj)]
    rfl

/-- By induction on the calls that are left. -/
theorem calls_afterCalls (h : s.InLowerHalf base) (count j : Nat) :
    (afterCalls base s j).calls count =
      .ok ((List.range' j count).map (s.answer base), afterCalls base s (j + count)) := by
  induction count generalizing j with
  | zero => rfl
  | succ count ih =>
    rw [calls, call_afterCalls h, Checked.ok_bind]
    show (calls count (afterCalls base s (j + 1)) >>= _) = _
    rw [ih, Checked.ok_bind, List.range'_succ, List.map_cons, Nat.add_right_comm, Nat.add_assoc]
    rfl

/-- The counters of a cursor are words, and so is the middle one when it is counted up before it is
carried. -/
structure Counts (c : RunCursor) : Prop where
  middle_lt : c.middle + 1 < 0x100000000
  outer_lt : c.outer < 0x100000000
  produced_lt : c.produced < wordLimit

theorem counts_afterCalls (hmiddle : s.middle.size < 0x100000000)
    (houter : s.outer.size < 0x100000000) (j : Nat) : (afterCalls base s j).Counts where
  middle_lt := by
    have hdigit : min j s.runs % s.middle.steps < s.middle.steps := Nat.mod_lt _ s.middle.steps_pos
    exact Nat.lt_of_le_of_lt hdigit (Dimension.steps_lt hmiddle)
  outer_lt := by
    have hdigit : min j s.runs / s.middle.steps ≤ s.outer.steps :=
      Nat.div_le_of_le_mul (Nat.min_le_right j s.runs)
    exact Nat.lt_of_le_of_lt hdigit (Dimension.steps_lt houter)
  produced_lt := Nat.lt_of_le_of_lt (Nat.min_le_right j s.runs) (Shape.runs_lt hmiddle houter)

/-- What a number of calls from the first run on have answered, and the cursor that they left: run `m` of
block `o` is answered at position `o * M + m`, where `M` is the number of runs of a block, nothing is
answered past the last run, and the cursor knows how many runs it has left. -/
structure Yielded (s : Shape) (base count : Nat) (answers : List (Option Nat)) (c : RunCursor) :
    Prop where
  length_eq : answers.length = count
  run : ∀ m < s.middle.steps, ∀ o < s.outer.steps, o * s.middle.steps + m < count →
    ∃ a : Nat, answers[o * s.middle.steps + m]? = some (some a) ∧
      (a : Int) = base + m * s.middle.stride + o * s.outer.stride
  past : ∀ j, s.runs ≤ j → j < count → answers[j]? = some none
  produced : answers.countP Option.isSome = min count s.runs
  remaining : c.remaining = s.runs - answers.countP Option.isSome
  finished : c.isFinished = true ↔ c.remaining = 0
  counts : c.Counts

theorem yielded_afterCalls (h : s.InLowerHalf base) {count : Nat}
    (hcounts : (afterCalls base s count).Counts) :
    Yielded s base count ((List.range count).map (s.answer base)) (afterCalls base s count) where
  length_eq := by simp
  run m hm o ho hlt := by
    have hrun := Shape.run_lt_runs hm ho
    refine ⟨(s.runAddress base (o * s.middle.steps + m)).toNat, ?_, ?_⟩
    · simp [Shape.answer, hlt, hrun]
    · rw [Int.toNat_of_nonneg (h _ hrun).1, s.runAddress_block base m o hm]
  past j hj hlt := by simp [Shape.answer, hlt, Nat.not_lt.mpr hj]
  produced := s.countP_answer base count
  remaining := by rw [s.countP_answer]; rfl
  finished := by simp [isFinished, remaining, Nat.sub_eq_zero_iff_le]
  counts := hcounts

theorem start_yields (h : s.InLowerHalf base) (hmiddle : s.middle.size < 0x100000000)
    (houter : s.outer.size < 0x100000000) (count : Nat) :
    ∃ answers, (start base s).calls count = .ok (answers, afterCalls base s count) ∧
      Yielded s base count answers (afterCalls base s count) := by
  have hstart : start base s = afterCalls base s 0 := by
    rw [afterCalls, Nat.zero_min, start_eq]
  refine ⟨_, ?_, yielded_afterCalls h (counts_afterCalls hmiddle houter count)⟩
  rw [hstart, calls_afterCalls h, Nat.zero_add, List.range_eq_range']

/-- **The addresses of a transfer in closed form.** Let the run addresses of a shape, over the integers, lie
below `2 ^ 63`, and its two sizes be 32-bit words. Then any number of calls to the cursor of the shape
finish, and no counter overflows. They answer with the run addresses, in order, and with nothing after the
last one. The cursor then has left as many runs as there are, less those that were answered, and it is
finished exactly if that is none. From wherever the cursor has got to, a cursor of its own begins at the
first run again, has them all left, and yields the same. -/
theorem cursor_yields_run_addresses {s : Shape} {base : Nat}
    (hmiddle : s.middle.size < 0x100000000) (houter : s.outer.size < 0x100000000)
    (hruns : ∀ m < s.middle.steps, ∀ o < s.outer.steps,
      0 ≤ (base : Int) + m * s.middle.stride + o * s.outer.stride ∧
        (base : Int) + m * s.middle.stride + o * s.outer.stride < 0x8000000000000000) :
    s.runs < wordLimit ∧ ∀ count, ∃ answers c, (start base s).calls count = .ok (answers, c) ∧
      Yielded s base count answers c ∧ c.iter.remaining = s.runs ∧
      ∀ count', ∃ answers' c', c.iter.calls count' = .ok (answers', c') ∧
        Yielded s base count' answers' c' := by
  have h : s.InLowerHalf base := by
    intro j hj
    exact hruns _ (Nat.mod_lt j s.middle.steps_pos) _ (Nat.div_lt_of_lt_mul hj)
  refine ⟨Shape.runs_lt hmiddle houter, fun count => ?_⟩
  obtain ⟨answers, hcalls, hyielded⟩ := start_yields h hmiddle houter count
  refine ⟨answers, _, hcalls, hyielded, rfl, fun count' => ?_⟩
  obtain ⟨answers', hagain⟩ := start_yields h hmiddle houter count'
  exact ⟨answers', _, hagain⟩

/-- Two runs in each of two blocks that go down from the last address of the lower half to the first. -/
def downward : Shape := ⟨1, ⟨2, -0x4000000000000000⟩, ⟨2, -0x3fffffffffffffff⟩⟩

theorem cursor_yields_run_addresses_downward :
    downward.middle.size < 0x100000000 ∧ downward.outer.size < 0x100000000 ∧
    (∀ m < downward.middle.steps, ∀ o < downward.outer.steps,
      0 ≤ ((0x7fffffffffffffff : Nat) : Int) + m * downward.middle.stride + o * downward.outer.stride ∧
        ((0x7fffffffffffffff : Nat) : Int) + m * downward.middle.stride + o * downward.outer.stride <
          0x8000000000000000) ∧
    ∃ c, (start 0x7fffffffffffffff downward).calls 5 = .ok ([some 0x7fffffffffffffff,
        some 0x3fffffffffffffff, some 0x4000000000000000, some 0, none], c) ∧
      c.isFinished = true ∧ c.iter.remaining = 4 := by
  have hmiddle : downward.middle.size < 0x100000000 := by decide
  have houter : downward.outer.size < 0x100000000 := by decide
  have hruns : ∀ m < downward.middle.steps, ∀ o < downward.outer.steps,
      0 ≤ ((0x7fffffffffffffff : Nat) : Int) + m * downward.middle.stride + o * downward.outer.stride ∧
        ((0x7fffffffffffffff : Nat) : Int) + m * downward.middle.stride + o * downward.outer.stride <
          0x8000000000000000 := by
    decide
  obtain ⟨-, hcalls⟩ := cursor_yields_run_addresses hmiddle houter hruns
  obtain ⟨answers, c, hfive, hyielded, hiter, -⟩ := hcalls 5
  have hdone : c.remaining = 0 := by
    rw [hyielded.remaining, hyielded.produced]
    decide
  refine ⟨hmiddle, houter, hruns, c, ?_, hyielded.finished.mpr hdone, hiter⟩
  rw [hfive]
  cases hfive
  rfl

end RunCursor

end TileStream
