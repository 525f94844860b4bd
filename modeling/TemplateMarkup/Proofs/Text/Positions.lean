/-
# Lines and columns tell offsets

The position of an offset is one plus the number of line breaks before it, and one plus the number
of characters behind the last of them (`Position.afterText_eq`).  Each character moves the position
on (`Position.rank_lt_rank_after`), so along a text positions grow, lines first, and no two offsets
between characters have the same one.

An offset that is not between characters, past the end or inside a character, has the position of
the end.
-/
import Mathlib.Data.List.DropRight
import Mathlib.Data.Prod.Lex
import Mathlib.Order.Monotone.Defs
import TemplateMarkup.Proofs.Tree.Seated
import TemplateMarkup.Text.Position

namespace TemplateMarkup

/-! ## 1. Positions -/

namespace Position

/-- The line, then the column: positions are compared by the first, and by the second where the
lines are the same. -/
def rank (p : Position) : ℕ ×ₗ ℕ := toLex (p.line, p.column)

/-- **A character moves the position on.** -/
theorem rank_lt_rank_after (p : Position) (c : Char) : p.rank < (p.after c).rank := by
  rw [rank, rank, Prod.Lex.toLex_lt_toLex, after]
  split
  · exact .inl (Nat.lt_succ_self _)
  · exact .inr ⟨rfl, Nat.lt_succ_self _⟩

/-- A text moves the position on, if it has a character. -/
theorem rank_lt_rank_foldl (p : Position) (c : Char) (t : Text) :
    p.rank < ((c :: t).foldl after p).rank := by
  induction t generalizing p c with
  | nil => exact p.rank_lt_rank_after c
  | cons d t ih => exact (p.rank_lt_rank_after c).trans (ih (p.after c) d)

theorem afterText_append (s t : Text) : afterText (s ++ t) = t.foldl after (afterText s) :=
  List.foldl_append

/-- **The position behind a text** is told by its line breaks and by what stands behind the last. -/
theorem afterText_eq (t : Text) :
    afterText t = ⟨t.count '\n' + 1, (t.rtakeWhile (· ≠ '\n')).length + 1⟩ := by
  induction t using List.reverseRecOn with
  | nil => rfl
  | append_singleton t c ih =>
    rw [afterText_append, ih, List.count_append, List.rtakeWhile_concat]
    by_cases h : c = '\n' <;> simp [after, h]

end Position

/-! ## 2. Offsets -/

namespace Text

theorem beforeByte?_size : ∀ u t : Text, beforeByte? (size u) (u ++ t) = some u
  | [], t => by rw [size_nil, beforeByte?]
  | c :: u, t => by
    obtain ⟨n, hn⟩ := Nat.exists_eq_add_one.mpr c.utf8Size_pos
    rw [size_cons, List.cons_append, hn, Nat.add_right_comm, beforeByte?, hn, if_pos (by omega),
      Nat.add_right_comm, Nat.add_sub_cancel_left, beforeByte?_size u t, Option.map_some]

/-- A text before an offset that is not the whole text ends there. -/
theorem eq_or_boundary_of_beforeByte? : ∀ {n : Nat} {t u : Text}, beforeByte? n t = some u →
    u = t ∨ t.Boundary n
  | 0, t, _, _ => .inr (boundary_zero t)
  | n + 1, [], u, h => by
    rw [beforeByte?] at h
    exact .inl (Option.some.inj h).symm
  | n + 1, c :: cs, u, h => by
    rw [beforeByte?] at h
    split at h
    · next hle =>
      obtain ⟨v, hv, rfl⟩ := Option.map_eq_some_iff.mp h
      rcases eq_or_boundary_of_beforeByte? hv with rfl | ⟨before, after, rfl, hsize⟩
      · exact .inl rfl
      · refine .inr ⟨c :: before, after, rfl, ?_⟩
        rw [size_cons, hsize, Nat.add_sub_cancel' hle]
    · cases h

theorem position_size (before after : Text) :
    (before ++ after).position before.size = Position.afterText before := by
  rw [position, beforeByte?_size, Option.getD_some]

/-- **Every other offset has the position of the end.** -/
theorem position_of_not_boundary {src : Text} {n : Nat} (h : ¬ src.Boundary n) :
    src.position n = src.position src.size := by
  have hend := position_size src []
  rw [List.append_nil] at hend
  rw [hend, position]
  cases hb : beforeByte? n src with
  | none => rw [Option.getD_none]
  | some u => rw [Option.getD_some, (eq_or_boundary_of_beforeByte? hb).resolve_right h]

/-- Positions grow from one offset between characters to the next. -/
theorem strictMonoOn_rank_position (src : Text) :
    StrictMonoOn (fun n => (src.position n).rank) {n | src.Boundary n} := by
  rintro m ⟨u, u', hu, rfl⟩ n ⟨v, v', hv, rfl⟩ hlt
  obtain ⟨w, hw, -⟩ | ⟨w, hw, -⟩ := List.append_eq_append_iff.mp (hu.symm.trans hv)
  · cases w with
    | nil =>
      rw [hw, List.append_nil] at hlt
      exact absurd hlt (Nat.lt_irrefl _)
    | cons c w =>
      change (src.position u.size).rank < (src.position v.size).rank
      rw [hu, position_size, ← hu, hv, position_size, hw, Position.afterText_append]
      exact Position.rank_lt_rank_foldl _ c w
  · rw [hw, size_append] at hlt
    omega

/-- **Line and column tell the offset.**  Between characters the line is one plus the number of line
breaks before the offset, and the column one plus the number of characters behind the last of them.
There positions grow with the offset, so that no two offsets have the same one.  An offset past the
end has the position of the end. -/
theorem position_strictMonoOn (src : Text) :
    (∀ before after : Text, src = before ++ after →
        src.position before.size
          = ⟨before.count '\n' + 1, (before.rtakeWhile (· ≠ '\n')).length + 1⟩)
      ∧ StrictMonoOn (fun n => (src.position n).rank) {n | src.Boundary n}
      ∧ Set.InjOn src.position {n | src.Boundary n}
      ∧ ∀ n : Nat, src.size < n → src.position n = src.position src.size := by
  have hmono := strictMonoOn_rank_position src
  refine ⟨fun before after h => ?_, hmono, fun m hm n hn h => ?_, fun n h => ?_⟩
  · rw [h, position_size, Position.afterText_eq]
  · exact hmono.injOn hm hn (congrArg Position.rank h)
  · exact position_of_not_boundary fun hb => absurd hb.le_size (Nat.not_le.mpr h)

/-- Two lines, with a character of two bytes in the second. -/
def accented : Text := "ab\ncd\u00e9f".toList

/-- Behind the character of two bytes the offset is 7 and the column 4. -/
theorem position_strictMonoOn_accented :
    accented.position 7 = ⟨2, 4⟩
      ∧ accented.Boundary 3 ∧ accented.Boundary 7 ∧ 3 < 7
      ∧ (accented.position 3).rank < (accented.position 7).rank
      ∧ accented.size < 100 ∧ accented.position 100 = accented.position accented.size := by
  obtain ⟨hpos, hmono, -, hend⟩ := position_strictMonoOn accented
  have h3 : accented.Boundary 3 := ⟨"ab\n".toList, "cd\u00e9f".toList, by decide, by decide⟩
  have h7 : accented.Boundary 7 := ⟨"ab\ncd\u00e9".toList, ['f'], by decide, by decide⟩
  have hsize : accented.size < 100 := by decide
  refine ⟨hpos "ab\ncd\u00e9".toList ['f'] (by decide), h3, h7, by decide, ?_, hsize, hend _ hsize⟩
  exact hmono h3 h7 (by decide)

end Text

end TemplateMarkup
