/-
# Offsets of a run

Where the pieces of a run stand in the source one after the other, the offsets of its bytes are in
order too: a byte is never located before the bytes before it, nor outside the stretch from the
first piece to the last.  This is so whether a piece is the source itself, was made by a command, or
is empty.

A byte is looked up in the last piece that starts at it or before it, and the end of a stretch in
the last piece that starts before that end.  Both are one search over the offsets at which the
pieces start (`RawRun.seatAt`), made at the byte itself or at the byte before (`Piece.seatIn_spec`).
-/
import Mathlib.Data.List.Chain
import TemplateMarkup.RawRun
import TemplateMarkup.Proofs.Tree.Seated

namespace TemplateMarkup

open Span (Between)

/-! ## 1. Bytes of a span -/

namespace Span

variable {s : Span} {size i j : Nat}

theorem start_le_locate : s.start ≤ s.locate size i := by
  have := s.start_le_stop
  unfold locate
  split <;> omega

theorem locate_le_stop (h : i ≤ size) : s.locate size i ≤ s.stop := by
  have := s.start_le_stop
  unfold locate length
  split <;> omega

theorem locate_mono (h : i ≤ j) : s.locate size i ≤ s.locate size j := by
  unfold locate
  split <;> omega

end Span

/-! ## 2. Pieces in order -/

namespace Piece

/-- The text of pieces. -/
def textOf (pieces : List Piece) : Text := pieces.flatMap text

@[simp] theorem textOf_nil : textOf [] = [] := rfl

@[simp] theorem textOf_cons (p : Piece) (pieces : List Piece) :
    textOf (p :: pieces) = p.text ++ textOf pieces := List.flatMap_cons

theorem size_textOf_cons (p : Piece) (pieces : List Piece) :
    (textOf (p :: pieces)).size = p.size + (textOf pieces).size := by
  rw [textOf_cons, Text.size_append, p.size_eq]

section

variable {hi : Nat}

theorem le_locateFrom : ∀ {lo : Nat} {p : Piece} {later : List Piece} {i : Nat},
    Between lo ((p :: later).map location) hi → lo ≤ p.locateFrom later i
  | lo, p, [], i, h => h.1.trans Span.start_le_locate
  | lo, p, q :: later, i, h => by
    rw [locateFrom]
    split
    · exact (h.1.trans p.location.start_le_stop).trans (le_locateFrom h.2)
    · exact h.1.trans Span.start_le_locate

theorem locateFrom_le : ∀ {lo : Nat} {p : Piece} {later : List Piece} {i : Nat},
    Between lo ((p :: later).map location) hi → i ≤ (textOf (p :: later)).size →
    p.locateFrom later i ≤ hi
  | lo, p, [], i, h, hi => by
    rw [size_textOf_cons, textOf_nil, Text.size_nil, Nat.add_zero] at hi
    exact (Span.locate_le_stop hi).trans h.2.le
  | lo, p, q :: later, i, h, hi => by
    rw [size_textOf_cons] at hi
    rw [locateFrom]
    split
    · exact locateFrom_le h.2 (by omega)
    · exact (Span.locate_le_stop (by omega)).trans h.2.le

theorem locateFrom_mono : ∀ {lo : Nat} {p : Piece} {later : List Piece} {i j : Nat},
    Between lo ((p :: later).map location) hi → i ≤ j →
    p.locateFrom later i ≤ p.locateFrom later j
  | lo, p, [], i, j, h, hij => Span.locate_mono hij
  | lo, p, q :: later, i, j, h, hij => by
    rw [locateFrom, locateFrom]
    split
    · next hi =>
      rw [if_pos (hi.trans hij)]
      exact locateFrom_mono h.2 (by omega)
    · next hi =>
      split
      · exact (Span.locate_le_stop (by omega)).trans (le_locateFrom h.2)
      · exact Span.locate_mono hij

/-- The end of a stretch is not behind the start of what follows. -/
theorem locateEndFrom_le : ∀ {lo : Nat} {p : Piece} {later : List Piece} {i : Nat},
    Between lo ((p :: later).map location) hi → p.locateEndFrom later i ≤ p.locateFrom later i
  | lo, p, [], i, h => Nat.le_refl _
  | lo, p, q :: later, i, h => by
    rw [locateFrom, locateEndFrom]
    split
    · next hi =>
      rw [if_pos (by omega)]
      exact locateEndFrom_le h.2
    · split
      · exact (Span.locate_le_stop (by omega)).trans (le_locateFrom h.2)
      · exact Nat.le_refl _

/-- The end of a stretch is not before the bytes of the stretch. -/
theorem locateFrom_le_locateEndFrom : ∀ {lo : Nat} {p : Piece} {later : List Piece} {i j : Nat},
    Between lo ((p :: later).map location) hi → i < j →
    p.locateFrom later i ≤ p.locateEndFrom later j
  | lo, p, [], i, j, h, hij => Span.locate_mono hij.le
  | lo, p, q :: later, i, j, h, hij => by
    rw [locateFrom, locateEndFrom]
    split
    · next hi =>
      rw [if_pos (by omega)]
      exact locateFrom_le_locateEndFrom h.2 (by omega)
    · next hi =>
      split
      · -- the stretch ends in a later piece
        have hstop : p.locate i ≤ q.locateFrom later 0 :=
          (Span.locate_le_stop (by omega)).trans (le_locateFrom h.2)
        exact hstop.trans (locateFrom_le_locateEndFrom h.2 (by omega))
      · exact Span.locate_mono hij.le

end

/-! ## 3. The piece of an index -/

/-- Pieces, the first of which starts at byte `offset` of the run, each with the byte at which it
starts. -/
def seats (offset : Nat) : List Piece → List (Nat × Piece)
  | [] => []
  | p :: later => (offset, p) :: seats (offset + p.size) later

theorem le_of_mem_seats {seat : Nat × Piece} : ∀ {offset : Nat} {pieces : List Piece},
    seat ∈ seats offset pieces → offset ≤ seat.1
  | offset, p :: later, h => by
    rw [seats, List.mem_cons] at h
    rcases h with rfl | h
    · exact Nat.le_refl _
    · exact (Nat.le_add_right _ _).trans (le_of_mem_seats h)

/-- The last of the pieces that start at byte `index` or before it, or else the first. -/
def seatIn (offset : Nat) (p : Piece) (later : List Piece) (index : Nat) : Nat × Piece :=
  (((seats offset (p :: later)).filter fun seat => seat.1 ≤ index).getLast?).getD (offset, p)

/-- The search goes on in the later pieces if the next one starts at the byte or before it. -/
theorem seatIn_cons_of_le {offset index : Nat} {p q : Piece} {later : List Piece}
    (h : offset + p.size ≤ index) :
    seatIn offset p (q :: later) index = seatIn (offset + p.size) q later index := by
  have hp : offset ≤ index := (Nat.le_add_right _ _).trans h
  simp [seatIn, seats, h, hp, List.getLast?_cons]

/-- Behind the byte no piece is found. -/
theorem seatIn_cons_of_lt {offset index : Nat} {p : Piece} {later : List Piece}
    (hp : offset ≤ index) (h : index < offset + p.size) :
    seatIn offset p later index = (offset, p) := by
  have hnone : (seats (offset + p.size) later).filter (fun seat => seat.1 ≤ index) = [] := by
    rw [List.filter_eq_nil_iff]
    intro seat hseat hle
    have := le_of_mem_seats hseat
    have := of_decide_eq_true hle
    omega
  simp [seatIn, seats, hp, hnone]

/-- **One search serves both sides of a byte**: the piece in which the byte starts is the one in
which it ends. -/
theorem seatIn_spec : ∀ {offset : Nat} (p : Piece) (later : List Piece) {index : Nat},
    offset ≤ index →
    (seatIn offset p later index).1 ≤ index
      ∧ p.locateFrom later (index - offset)
        = (seatIn offset p later index).2.locate (index - (seatIn offset p later index).1)
      ∧ p.locateEndFrom later (index + 1 - offset)
        = (seatIn offset p later index).2.locate (index + 1 - (seatIn offset p later index).1)
  | offset, p, [], index, h => by
    have hseat : seatIn offset p [] index = (offset, p) := by
      simp [seatIn, seats, h]
    rw [hseat]
    exact ⟨h, rfl, rfl⟩
  | offset, p, q :: later, index, h => by
    by_cases hnext : offset + p.size ≤ index
    · obtain ⟨hle, hstart, hend⟩ := seatIn_spec q later hnext
      rw [seatIn_cons_of_le hnext, locateFrom, locateEndFrom, if_pos (by omega),
        if_pos (by omega), Nat.sub_sub, Nat.sub_sub]
      exact ⟨hle, hstart, hend⟩
    · rw [seatIn_cons_of_lt h (Nat.lt_of_not_le hnext), locateFrom, locateEndFrom,
        if_neg (by omega), if_neg (by omega)]
      exact ⟨h, rfl, rfl⟩

/-- What starts at an offset of its own starts where the bytes before it end or later. -/
theorem between_of_isChain : ∀ {p : Piece} {later : List Piece},
    (p :: later).IsChain (fun p q => p.location.stop ≤ q.location.start) →
    Between p.location.start ((p :: later).map location)
      ((p :: later).getLast (List.cons_ne_nil p later)).location.stop
  | p, [], _ => ⟨Nat.le_refl _, Nat.le_refl _⟩
  | p, q :: later, h => by
    obtain ⟨hpq, hlater⟩ := List.isChain_cons_cons.mp h
    rw [List.getLast_cons (List.cons_ne_nil q later)]
    exact ⟨Nat.le_refl _, (between_of_isChain hlater).mono hpq (Nat.le_refl _)⟩

/-! ## 4. Pieces of the source -/

/-- The pieces are parts of the source as it is, and each begins where the one before it ends. -/
structure Unbroken (pieces : List Piece) : Prop where
  exact : ∀ p ∈ pieces, p.location.length = p.size
  touch : pieces.IsChain fun p q => p.location.stop = q.location.start

theorem Unbroken.locate {p : Piece} {later : List Piece} (h : Unbroken (p :: later)) (i : Nat) :
    p.locate i = p.location.start + i :=
  if_pos (h.exact p List.mem_cons_self).symm

theorem Unbroken.tail {p q : Piece} {later : List Piece} (h : Unbroken (p :: q :: later)) :
    Unbroken (q :: later) where
  exact := fun r hr => h.exact r (List.mem_cons_of_mem _ hr)
  touch := (List.isChain_cons_cons.mp h.touch).2

/-- The next piece begins as many bytes later as the piece has. -/
theorem Unbroken.start_next {p q : Piece} {later : List Piece} (h : Unbroken (p :: q :: later)) :
    q.location.start = p.location.start + p.size := by
  have htouch := (List.isChain_cons_cons.mp h.touch).1
  have hexact := h.exact p List.mem_cons_self
  have hle := p.location.start_le_stop
  unfold Span.length at hexact
  omega

/-- **In unbroken pieces the bytes are those of the source.** -/
theorem Unbroken.locateFrom : ∀ {p : Piece} {later : List Piece}, Unbroken (p :: later) →
    ∀ i : Nat, p.locateFrom later i = p.location.start + i
  | p, [], h, i => h.locate i
  | p, q :: later, h, i => by
    rw [Piece.locateFrom]
    split
    · rw [Unbroken.locateFrom h.tail, h.start_next]
      omega
    · exact h.locate i

theorem Unbroken.locateEndFrom : ∀ {p : Piece} {later : List Piece}, Unbroken (p :: later) →
    ∀ i : Nat, p.locateEndFrom later i = p.location.start + i
  | p, [], h, i => h.locate i
  | p, q :: later, h, i => by
    rw [Piece.locateEndFrom]
    split
    · rw [Unbroken.locateEndFrom h.tail, h.start_next]
      omega
    · exact h.locate i

end Piece

/-! ## 5. Runs -/

namespace RawRun

/-- Each piece ends before the next begins. -/
def InOrder (r : RawRun) : Prop :=
  r.pieces.IsChain fun p q => p.location.stop ≤ q.location.start

/-- The last piece. -/
def last (r : RawRun) : Piece := r.pieces.getLast (List.cons_ne_nil _ _)

/-- The pieces, each with the number of bytes before it. -/
def seats (r : RawRun) : List (Nat × Piece) := Piece.seats 0 r.pieces

/-- The last piece that starts at byte `index` or before it, with the number of bytes before it. -/
def seatAt (r : RawRun) (index : Nat) : Nat × Piece := Piece.seatIn 0 r.first r.later index

variable {r : RawRun} {i j : Nat}

theorem text_eq_textOf (r : RawRun) : r.text = Piece.textOf (r.first :: r.later) := rfl

theorem InOrder.between (h : r.InOrder) :
    Between r.first.location.start ((r.first :: r.later).map Piece.location) r.last.location.stop :=
  Piece.between_of_isChain h

/-- A byte is located in the piece in which it starts. -/
theorem locate_eq_seatAt (r : RawRun) (i : Nat) :
    (r.seatAt i).1 ≤ i ∧ r.locate i = (r.seatAt i).2.locate (i - (r.seatAt i).1) := by
  obtain ⟨hle, hstart, -⟩ := Piece.seatIn_spec r.first r.later (Nat.zero_le i)
  exact ⟨hle, hstart⟩

/-- An end is located in the piece in which the byte before it starts. -/
theorem locateEnd_eq_seatAt (r : RawRun) (i : Nat) :
    (r.seatAt i).1 ≤ i
      ∧ r.locateEnd (i + 1) = (r.seatAt i).2.locate (i + 1 - (r.seatAt i).1) := by
  obtain ⟨hle, -, hend⟩ := Piece.seatIn_spec r.first r.later (Nat.zero_le i)
  exact ⟨hle, hend⟩

theorem InOrder.locate_mono (h : r.InOrder) (hij : i ≤ j) : r.locate i ≤ r.locate j :=
  Piece.locateFrom_mono h.between hij

theorem InOrder.locateEnd_le (h : r.InOrder) : r.locateEnd i ≤ r.locate i := by
  unfold locateEnd
  split
  · next h0 => rw [h0]
  · exact Piece.locateEndFrom_le h.between

theorem InOrder.locate_le_locateEnd (h : r.InOrder) (hij : i < j) :
    r.locate i ≤ r.locateEnd j := by
  unfold locateEnd
  rw [if_neg (Nat.ne_zero_of_lt hij)]
  exact Piece.locateFrom_le_locateEndFrom h.between hij

theorem InOrder.locateEnd_mono (h : r.InOrder) (hij : i ≤ j) : r.locateEnd i ≤ r.locateEnd j := by
  rcases hij.eq_or_lt with rfl | hlt
  · exact Nat.le_refl _
  · exact h.locateEnd_le.trans (h.locate_le_locateEnd hlt)

/-- **The offsets of a run whose pieces are in order.**  A byte, or an end, is looked up in a piece
that starts at it or before it, so that no offset is taken from a smaller one.  The source offsets
lie between the start of the first piece and the end of the last, they grow with the index, and an
end is not behind the start of what follows.  The span of some bytes begins where the first starts
and, if there are any, ends where the last ends.  If the pieces are the source as it is, without a
gap, the offsets are those of the source. -/
theorem locate_inOrder (h : r.InOrder) (hij : i ≤ j) (hj : j ≤ r.text.size) :
    ((r.seatAt i).1 ≤ i ∧ r.locate i = (r.seatAt i).2.locate (i - (r.seatAt i).1))
      ∧ (∀ k, i = k + 1 → (r.seatAt k).1 ≤ k
        ∧ r.locateEnd i = (r.seatAt k).2.locate (i - (r.seatAt k).1))
      ∧ (r.first.location.start ≤ r.locate i ∧ r.locate i ≤ r.last.location.stop)
      ∧ (r.first.location.start ≤ r.locateEnd i ∧ r.locateEnd i ≤ r.last.location.stop)
      ∧ r.locate i ≤ r.locate j ∧ r.locateEnd i ≤ r.locateEnd j
      ∧ r.locateEnd i ≤ r.locate i
      ∧ (r.location i j).start = r.locate i ∧ r.locate i ≤ (r.location i j).stop
      ∧ (i < j → (r.location i j).stop = r.locateEnd j)
      ∧ (Piece.Unbroken r.pieces →
        r.locate i = r.first.location.start + i ∧ r.locateEnd i = r.first.location.start + i) := by
  have hle : r.locate i ≤ r.last.location.stop := by
    rw [text_eq_textOf] at hj
    exact Piece.locateFrom_le h.between (hij.trans hj)
  have hend : r.first.location.start ≤ r.locateEnd i :=
    (Piece.le_locateFrom h.between).trans (h.locateEnd_mono (Nat.zero_le i))
  refine ⟨r.locate_eq_seatAt i, ?_, ⟨Piece.le_locateFrom h.between, hle⟩,
    ⟨hend, h.locateEnd_le.trans hle⟩, h.locate_mono hij, h.locateEnd_mono hij, h.locateEnd_le, rfl,
    Nat.le_max_left .., fun hlt => Nat.max_eq_right (h.locate_le_locateEnd hlt), fun hu => ?_⟩
  · rintro k rfl
    exact r.locateEnd_eq_seatAt k
  · refine ⟨hu.locateFrom i, ?_⟩
    unfold locateEnd
    split
    · next h0 =>
      rw [h0]
      exact hu.locateFrom 0
    · exact hu.locateEndFrom i

/-- The run of `<di{nil}{sp}v` and `>` behind ten other bytes: a piece of the source, two pieces
that commands made, one of them empty, and two more of the source. -/
def runOfCommands : RawRun :=
  ((((single "<di".toList ⟨10, 13, by decide⟩).push [] ⟨13, 18, by decide⟩).push [' ']
    ⟨18, 22, by decide⟩).push ['v'] ⟨22, 23, by decide⟩).push ['>'] ⟨23, 24, by decide⟩

/-- The run of `<di` and `v>`, which touch. -/
def runOfSource : RawRun :=
  (single "<di".toList ⟨10, 13, by decide⟩).push "v>".toList ⟨13, 15, by decide⟩

/-- At the start of the two pieces that commands made, the end before them is byte 13 and what
follows begins at byte 18; the space ends one byte later, inside its command.  Without commands the
seam of two pieces is one byte of the source. -/
theorem locate_inOrder_runOfCommands :
    runOfCommands.InOrder ∧ 4 ≤ runOfCommands.text.size
      ∧ (runOfCommands.seatAt 3).1 = 3 ∧ runOfCommands.locate 3 = 18
      ∧ runOfCommands.locateEnd 3 = 13 ∧ runOfCommands.locateEnd 3 ≤ runOfCommands.locate 3
      ∧ (runOfCommands.location 3 4).stop = runOfCommands.locateEnd 4
      ∧ runOfCommands.locateEnd 4 = 19
      ∧ runOfSource.InOrder ∧ Piece.Unbroken runOfSource.pieces
      ∧ runOfSource.locate 3 = 10 + 3 ∧ runOfSource.locateEnd 3 = 10 + 3 := by
  have h : runOfCommands.InOrder := by unfold InOrder; decide
  have hsize : 4 ≤ runOfCommands.text.size := by decide
  have h' : runOfSource.InOrder := by unfold InOrder; decide
  have hu : Piece.Unbroken runOfSource.pieces := ⟨by decide, by decide⟩
  obtain ⟨-, -, -, -, -, -, hle, -, -, hstop, -⟩ :=
    locate_inOrder h (by decide : 3 ≤ 4) hsize
  obtain ⟨-, -, -, -, -, -, -, -, -, -, hsource⟩ :=
    locate_inOrder h' (Nat.le_refl 3) (by decide)
  exact ⟨h, hsize, by decide, by decide, by decide, hle, hstop (by decide), by decide, h', hu,
    hsource hu⟩

end RawRun

end TemplateMarkup
