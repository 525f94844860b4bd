/-
# Where the bytes of a run stand

A run is laid out if its pieces stand one after the other in the source, each with text that it
carries.  Then a byte of the run is never located before the bytes before it, the end of a stretch is
never located behind the start of what follows, and at the end of the run the two are the same.  Every
cut between two characters of the run is located between two characters of the source, though the
pieces need not touch.
-/
import TemplateMarkup.Proofs.Html.RunOrder
import TemplateMarkup.Proofs.Template.LaidOut

namespace TemplateMarkup

open Span (Between between_append)

/-! ## 1. Pieces -/

theorem Text.size_pos {t : Text} (h : t ≠ []) : 0 < t.size := by
  cases t with
  | nil => exact absurd rfl h
  | cons c cs => exact Nat.add_pos_left c.utf8Size_pos _

namespace Piece

/-- The pieces stand one after the other between two offsets, each with text that it carries. -/
structure LaidOut (src : Text) (lo : Nat) (pieces : List Piece) (hi : Nat) : Prop where
  between : Between lo (pieces.map location) hi
  nonempty : ∀ p ∈ pieces, p.text ≠ []
  carries : ∀ p ∈ pieces, p.location.Carries src p.text

variable {src : Text} {lo hi i j : Nat} {p : Piece} {pieces : List Piece}

theorem LaidOut.tail (h : LaidOut src lo (p :: pieces) hi) :
    LaidOut src p.location.stop pieces hi where
  between := h.between.2
  nonempty := fun q hq => h.nonempty q (List.mem_cons_of_mem _ hq)
  carries := fun q hq => h.carries q (List.mem_cons_of_mem _ hq)

/-- At the end of all pieces nothing follows. -/
theorem locateEndFrom_size : ∀ {lo : Nat} {p : Piece} {later : List Piece},
    LaidOut src lo (p :: later) hi →
    p.locateEndFrom later (textOf (p :: later)).size = p.locateFrom later (textOf (p :: later)).size
  | lo, p, [], h => rfl
  | lo, p, q :: later, h => by
    have hq := Text.size_pos (h.tail.nonempty q List.mem_cons_self)
    have ih := locateEndFrom_size h.tail
    rw [size_textOf_cons, locateFrom, locateEndFrom, if_pos (Nat.le_add_right ..), if_pos,
      Nat.add_sub_cancel_left, ih]
    rw [textOf_cons, Text.size_append]
    omega

/-- **A cut between characters is located between characters.** -/
theorem boundary_locateFrom : ∀ {lo : Nat} {p : Piece} {later : List Piece} {before after : Text},
    LaidOut src lo (p :: later) hi → textOf (p :: later) = before ++ after →
    src.Boundary (p.locateFrom later before.size)
      ∧ src.Boundary (p.locateEndFrom later before.size)
  | lo, p, later, before, after, h, htext => by
    have inside {u v : Text} (huv : p.text = u ++ v) : src.Boundary (p.locate u.size) := by
      rw [locate, p.size_eq]
      exact h.carries p List.mem_cons_self u v huv
    cases later with
    | nil =>
      rw [textOf_cons, textOf_nil, List.append_nil] at htext
      exact ⟨inside htext, inside htext⟩
    | cons q later =>
      have hsize := p.size_eq
      rw [textOf_cons] at htext
      rw [locateFrom, locateEndFrom]
      rcases List.append_eq_append_iff.mp htext with ⟨u, rfl, hu⟩ | ⟨u, hu, rfl⟩
      · -- the cut is in a later piece, or at the end of this one
        have hdrop : Text.size (p.text ++ u) - p.size = Text.size u := by
          rw [Text.size_append, hsize, Nat.add_sub_cancel_left]
        have ih := boundary_locateFrom h.tail hu
        rw [hdrop, if_pos (by rw [Text.size_append]; omega)]
        refine ⟨ih.1, ?_⟩
        split
        · exact ih.2
        · next hle =>
          obtain rfl : u = [] := by
            by_contra hne
            have := Text.size_pos hne
            rw [Text.size_append] at hle
            omega
          exact inside (v := []) (by simp)
      · have hlt : Text.size before ≤ p.size := by
          rw [hsize, hu, Text.size_append]
          exact Nat.le_add_right ..
        rw [if_neg (Nat.not_lt.mpr hlt)]
        refine ⟨?_, inside hu⟩
        split
        · next hge =>
          have ih := boundary_locateFrom h.tail (List.nil_append (textOf (q :: later))).symm
          rw [Nat.sub_eq_zero_of_le hlt]
          exact ih.1
        · exact inside hu

end Piece

/-! ## 2. Runs -/

namespace RawRun

/-- The pieces of the run stand one after the other between two offsets. -/
def LaidOut (src : Text) (lo : Nat) (r : RawRun) (hi : Nat) : Prop :=
  Piece.LaidOut src lo r.pieces hi

variable {src : Text} {lo hi i j : Nat} {r : RawRun}

theorem laidOut_single {t : Text} {s : Span} (hne : t ≠ []) (hc : s.Carries src t)
    (hlo : lo ≤ s.start) (hhi : s.stop ≤ hi) : (single t s).LaidOut src lo hi where
  between := ⟨hlo, hhi⟩
  nonempty := by simp [single, pieces, hne]
  carries := by simp [single, pieces, hc]

theorem LaidOut.push {mid : Nat} {t : Text} {s : Span} (h : r.LaidOut src lo mid) (hne : t ≠ [])
    (hc : s.Carries src t) (hlo : mid ≤ s.start) (hhi : s.stop ≤ hi) :
    (r.push t s).LaidOut src lo hi := by
  have hpieces : (r.push t s).pieces = r.pieces ++ [{ text := t, location := s }] := rfl
  refine ⟨?_, ?_, ?_⟩
  · rw [hpieces, List.map_append]
    exact between_append.mpr ⟨mid, h.between, hlo, hhi⟩
  · rw [hpieces, List.forall_mem_append]
    exact ⟨h.nonempty, by simp [hne]⟩
  · rw [hpieces, List.forall_mem_append]
    exact ⟨h.carries, by simp [hc]⟩

theorem LaidOut.le_locate (h : r.LaidOut src lo hi) : lo ≤ r.locate i :=
  Piece.le_locateFrom h.between

theorem LaidOut.locate_le (h : r.LaidOut src lo hi) (hi' : i ≤ r.text.size) : r.locate i ≤ hi :=
  Piece.locateFrom_le h.between hi'

theorem LaidOut.locate_mono (h : r.LaidOut src lo hi) (hij : i ≤ j) : r.locate i ≤ r.locate j :=
  Piece.locateFrom_mono h.between hij

theorem LaidOut.locateEnd_le (h : r.LaidOut src lo hi) : r.locateEnd i ≤ r.locate i := by
  unfold locateEnd
  split
  · next h0 => rw [h0]
  · exact Piece.locateEndFrom_le h.between

theorem LaidOut.locateEnd_size (h : r.LaidOut src lo hi) :
    r.locateEnd r.text.size = r.locate r.text.size := by
  unfold locateEnd
  split
  · next h0 => rw [h0]
  · exact Piece.locateEndFrom_size h

/-- The offset in the run lies between two characters of it. -/
theorem LaidOut.boundary_locate (h : r.LaidOut src lo hi) (hi' : r.text.Boundary i) :
    src.Boundary (r.locate i) := by
  obtain ⟨before, after, htext, rfl⟩ := hi'
  exact (Piece.boundary_locateFrom h htext).1

theorem LaidOut.boundary_locateEnd (h : r.LaidOut src lo hi) (hi' : r.text.Boundary i) :
    src.Boundary (r.locateEnd i) := by
  unfold locateEnd
  split
  · exact h.boundary_locate (Text.boundary_zero _)
  · obtain ⟨before, after, htext, rfl⟩ := hi'
    exact (Piece.boundary_locateFrom h htext).2

/-- **The place of a stretch of the run** begins where the stretch does, is sound, and ends before
what follows. -/
theorem LaidOut.sound_location (h : r.LaidOut src lo hi) (hi' : r.text.Boundary i)
    (hj : r.text.Boundary j) : (r.location i j).Sound src :=
  Span.sound_upTo (h.boundary_locate hi') (h.boundary_locateEnd hj)

theorem LaidOut.location_stop_le (h : r.LaidOut src lo hi) (hij : i ≤ j) :
    (r.location i j).stop ≤ r.locate j :=
  Nat.max_le.mpr ⟨h.locate_mono hij, h.locateEnd_le⟩

end RawRun

end TemplateMarkup
