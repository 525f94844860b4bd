/-
# Reading comes to its end

A lexeme takes a beginning of the text that is left, whole characters of it, or it takes nothing and
goes on in another context.  `Context.Pause` lists the lexemes that take nothing.  Before one
character there are at most two of them: `Context.idle` counts those that may still come, and each
makes it smaller (`Pause.idle_lt`).

So the reading of any text ends, from any context, whether or not any text leads to that context
(`reading_ends`).
-/
import Mathlib.Logic.Function.Iterate
import TemplateMarkup.Proofs.Html.Safe

namespace TemplateMarkup

namespace Context

/-! ## 1. Lexemes that take nothing -/

/-- The contexts before and after a lexeme that takes nothing, where the text begins with `c`. -/
inductive Pause (c : Char) : Context → Context → Prop
  | abort (part : NamePart) : Pause c (tagName part) pcdata
  | nameEnd (part : NamePart) (hc : endsName c = true) : Pause c (tagName part) beforeAttrName
  | nameGlued : Pause c (tagName .dynamic) beforeAttrName
  | attrStart {drop : Bool} (hc : endsName c = false) (hd : startsAttrName c = !drop) :
      Pause c beforeAttrName (attrName .empty false drop)
  | spoiled (part : NamePart) (sep : Bool) (hp : part ≠ .dynamic)
      (hc : part = .empty → startsAttrName c = false) :
      Pause c (attrName part sep false) (attrName part false true)
  | attrEnd (part : NamePart) (sep drop : Bool) (hc : endsName c = true) :
      Pause c (attrName part sep drop) beforeAttrName
  | attrGlued (sep : Bool) : Pause c (attrName .dynamic sep false) beforeAttrName
  | openBare (hc : isAsciiBlank c = false) : Pause c beforeAttrValue (attrValue .bare)
  | closeBare (hc : Lexeme.inBareValue c = false) : Pause c (attrValue .bare) beforeAttrName

/-- A lexeme takes characters, or it is one of these. -/
def Advances (here : Context) (c : Char) (l : Lexeme) : Prop := 0 < l.width ∨ Pause c here l.next

end Context

namespace Lexeme

open Context (Advances Pause)

theorem advances_run {here next : Context} {c : Char} {p : Char → Bool} (hc : p c = true)
    (cs : Text) (mark : Option Mark) :
    Advances here c ⟨next, mark, Text.run p (c :: cs), none⟩ := by
  rw [Text.run_cons_of hc]
  exact .inl (Nat.succ_pos _)

theorem inTagNameAt_advances (part : NamePart) (c : Char) (cs : Text) :
    Advances (.tagName part) c (inTagNameAt part c cs) := by
  cases part with
  | empty =>
    simp only [inTagNameAt]
    split
    · next h =>
      refine advances_run ?_ cs _
      simp only [startsTagName] at h
      simp [inTagName, Char.isAlphanum, h]
    · exact .inr (.abort _)
  | static =>
    simp only [inTagNameAt]
    split
    · next h => exact .inr (.nameEnd _ h)
    · split
      · next h => exact advances_run h cs _
      · exact .inr (.abort _)
  | dynamic =>
    simp only [inTagNameAt]
    split
    · next h => exact .inr (.nameEnd _ h)
    · exact .inr .nameGlued

theorem inTag_advances (c : Char) (cs : Text) : Advances .beforeAttrName c (inTag c cs) := by
  unfold inTag
  split
  · next h => exact advances_run h cs _
  · next hblank =>
    split
    · exact .inl Nat.one_pos
    · next hangle =>
      split
      · split
        · exact .inl Nat.two_pos
        · exact .inl Nat.one_pos
      · next hslash =>
        have hends : endsName c = false := by simp [endsName, hblank, hangle, hslash]
        split
        · next h => exact .inr (.attrStart hends h)
        · next h => exact .inr (.attrStart hends (by simpa using h))

theorem atAttrNameEnd_advances {part : NamePart} {sep drop : Bool} {c : Char}
    (h : (endsName c || c == '=') = true) :
    Advances (.attrName part sep drop) c (atAttrNameEnd c) := by
  unfold atAttrNameEnd
  split
  · exact .inl Nat.one_pos
  · next he => exact .inr (.attrEnd _ _ _ (by simpa [he] using h))

theorem inAttrNameAt_advances (part : NamePart) (sep drop : Bool) (c : Char) :
    Advances (.attrName part sep drop) c (inAttrNameAt part sep drop c) := by
  cases drop with
  | true =>
    simp only [inAttrNameAt, if_true]
    split
    · next h => exact atAttrNameEnd_advances h
    · exact .inl Nat.one_pos
  | false =>
    cases part with
    | dynamic =>
      simp only [inAttrNameAt, Bool.false_eq_true, if_false]
      split
      · next h => exact atAttrNameEnd_advances h
      · exact .inr (.attrGlued _)
    | empty =>
      simp only [inAttrNameAt, Bool.false_eq_true, if_false]
      split
      · next h =>
        split
        · exact .inr (.spoiled _ _ (by decide) fun _ => not_startsAttrName_of_atEnd h)
        · exact atAttrNameEnd_advances h
      · split
        · exact .inl Nat.one_pos
        · next h => exact .inr (.spoiled _ _ (by decide) fun _ => by simpa using h)
    | static =>
      simp only [inAttrNameAt, Bool.false_eq_true, if_false]
      split
      · next h =>
        split
        · exact .inr (.spoiled _ _ (by decide) (by simp))
        · exact atAttrNameEnd_advances h
      · split
        · exact .inl Nat.one_pos
        · split
          · exact .inl Nat.one_pos
          · exact .inr (.spoiled _ _ (by decide) (by simp))

theorem beforeValue_advances (c : Char) (cs : Text) :
    Advances .beforeAttrValue c (beforeValue c cs) := by
  unfold beforeValue
  split
  · next h => exact advances_run h cs _
  · next hblank =>
    split
    · exact .inl Nat.one_pos
    · split
      · exact .inl Nat.one_pos
      · exact .inr (.openBare (by simpa using hblank))

theorem inValue_advances (quotes : Quotes) (c : Char) (cs : Text) :
    Advances (.attrValue quotes) c (inValue quotes c cs) := by
  cases quotes with
  | bare =>
    simp only [inValue, Quotes.char?]
    split
    · next h => exact advances_run h cs _
    · next h => exact .inr (.closeBare (by simpa using h))
  | single | double =>
    simp only [inValue, Quotes.char?]
    split
    · exact .inl Nat.one_pos
    · next h => exact advances_run (by simpa using h) cs _

end Lexeme

namespace Context

/-- **No other lexeme takes nothing.** -/
theorem lexeme_advances (here : Context) (c : Char) (cs : Text) :
    Advances here c (here.lexeme c cs) := by
  have hmove := lexeme_move here c cs
  cases here with
  | pcdata | rcdata | comment | declaration | cdata =>
    generalize lexeme c cs _ = l at hmove ⊢
    cases hmove <;> exact .inl (Nat.succ_pos _)
  | tagName part => exact Lexeme.inTagNameAt_advances part c cs
  | beforeAttrName => exact Lexeme.inTag_advances c cs
  | attrName part sep drop => exact Lexeme.inAttrNameAt_advances part sep drop c
  | beforeAttrValue => exact Lexeme.beforeValue_advances c cs
  | attrValue quotes => exact Lexeme.inValue_advances quotes c cs

/-- A bound on the lexemes that take nothing before the character `c` is taken. -/
def idle (c : Char) : Context → Nat
  | tagName part => if part = .dynamic ∧ endsName c = false then 2 else 1
  | beforeAttrName => if endsName c then 0 else 1
  | attrName _ _ true => if endsName c then 1 else 0
  | attrName part _ false =>
    if part = .empty ∧ startsAttrName c = true then 0
    else if part = .dynamic ∨ endsName c = true then 2 else 1
  | beforeAttrValue => if c = '>' then 2 else 1
  | attrValue .bare => if Lexeme.inBareValue c then 0 else 1
  | _ => 0

theorem idle_le_two (c : Char) (here : Context) : here.idle c ≤ 2 := by
  unfold idle
  split <;> (try split) <;> (try split) <;> omega

/-- **Each lexeme that takes nothing leaves fewer of them.** -/
theorem Pause.idle_lt {c : Char} {here next : Context} (h : Pause c here next) :
    next.idle c < here.idle c := by
  have hbefore (hc : endsName c = true) : idle c beforeAttrName = 0 := by rw [idle, if_pos hc]
  cases h with
  | abort part =>
    simp only [idle]
    split <;> omega
  | nameEnd part hc =>
    rw [hbefore hc, idle]
    split <;> omega
  | nameGlued =>
    cases hc : endsName c <;> simp [idle, hc]
  | @attrStart drop hc hd => cases drop <;> simp [idle, hc, hd]
  | spoiled part sep hp hc =>
    cases he : endsName c <;> cases part <;> simp_all [idle]
  | attrEnd part sep drop hc =>
    rw [hbefore hc]
    have hs := not_startsAttrName_of_endsName hc
    cases drop <;> simp [idle, hc, hs]
  | attrGlued sep =>
    cases hc : endsName c <;> simp [idle, hc]
  | openBare hc =>
    simp only [idle, Lexeme.inBareValue, hc]
    by_cases h : c = '>' <;> simp [h]
  | closeBare hc =>
    have hends : endsName c = true := by
      simp only [Lexeme.inBareValue, Bool.and_eq_false_iff, Bool.not_eq_false',
        bne_eq_false_iff_eq] at hc
      rcases hc with hc | hc <;> simp [endsName, hc]
    rw [hbefore hends, idle, hc]
    exact Nat.one_pos

theorem lexeme_idle {here : Context} {c : Char} {cs : Text} (h : (here.lexeme c cs).width = 0) :
    (here.lexeme c cs).next.idle c < here.idle c := by
  rcases here.lexeme_advances c cs with hw | hpause
  · omega
  · exact hpause.idle_lt

/-! ## 2. One step after another -/

/-- The context and the text that are left after the next lexeme. -/
def step : Context × Text → Context × Text
  | (here, []) => (here, [])
  | (here, c :: cs) => ((here.lexeme c cs).next, (c :: cs).drop (here.lexeme c cs).width)

/-- A lexeme takes whole characters, and where it takes none the context changes. -/
theorem lexeme_takes (here : Context) (c : Char) (cs : Text) :
    let l := here.lexeme c cs
    let piece : Text := (c :: cs).take l.width
    piece.length = l.width ∧ Text.dropBytes? piece.size (c :: cs) = some ((c :: cs).drop l.width)
      ∧ (l.width = 0 → l.next ≠ here) := by
  intro l piece
  refine ⟨List.length_take_of_le (here.width_lexeme_le c cs), ?_, fun hw hsame => ?_⟩
  · have hcut := Text.dropBytes?_size piece ((c :: cs).drop l.width)
    rwa [List.take_append_drop] at hcut
  · have := lexeme_idle hw
    rw [show (here.lexeme c cs).next = here from hsame] at this
    exact Nat.lt_irrefl _ this

theorem lexemes_cons (here : Context) (c : Char) (cs : Text) :
    here.lexemes (c :: cs)
      = (here.lexeme c cs, (c :: cs).take (here.lexeme c cs).width)
        :: (here.lexeme c cs).next.lexemes ((c :: cs).drop (here.lexeme c cs).width) := by
  rw [lexemes]

/-- The lexemes of a text are the steps until nothing is left. -/
theorem iterate_step (here : Context) (t : Text) :
    step^[(here.lexemes t).length] (here, t) = (here.afterLexemes (here.lexemes t), []) := by
  induction here, t using lexemes.induct with
  | case1 here =>
    rw [lexemes]
    rfl
  | case2 here c cs l ih =>
    rw [lexemes_cons, List.length_cons, Function.iterate_succ_apply]
    refine ih.trans (Prod.ext ?_ rfl)
    dsimp only [afterLexemes, l]
    rw [List.getLast?_cons]
    generalize (lexemes _ _).getLast? = last
    cases last <;> rfl

/-- The lexeme that a step reads is the one at its place. -/
theorem getElem?_lexemes {here before : Context} {t : Text} {c : Char} {cs : Text} :
    ∀ {n : Nat}, step^[n] (here, t) = (before, c :: cs) → (here.lexemes t)[n]?
      = some (before.lexeme c cs, (c :: cs).take (before.lexeme c cs).width) := by
  intro n
  induction n generalizing here t with
  | zero =>
    intro h
    obtain ⟨rfl, rfl⟩ := Prod.mk.inj h
    rw [lexemes_cons]
    rfl
  | succ n ih =>
    intro h
    rw [Function.iterate_succ_apply] at h
    cases t with
    | nil =>
      rw [step, Function.iterate_fixed rfl] at h
      cases h
    | cons d ds =>
      rw [lexemes_cons, List.getElem?_cons_succ]
      exact ih h

/-- A bound on the steps that are left. -/
def stepsLeft (here : Context) : Text → Nat
  | [] => 0
  | c :: cs => 3 * cs.length + 1 + here.idle c

theorem stepsLeft_le (here : Context) (t : Text) : here.stepsLeft t ≤ 3 * t.length := by
  cases t with
  | nil => exact Nat.zero_le _
  | cons c cs =>
    have := here.idle_le_two c
    rw [stepsLeft, List.length_cons]
    omega

theorem length_lexemes_le (here : Context) (t : Text) :
    (here.lexemes t).length ≤ here.stepsLeft t := by
  induction here, t using lexemes.induct with
  | case1 here =>
    rw [lexemes]
    exact Nat.zero_le _
  | case2 here c cs l ih =>
    rw [lexemes_cons, List.length_cons, stepsLeft]
    refine Nat.le_trans (Nat.succ_le_succ ih) ?_
    by_cases hw : l.width = 0
    · have : l.next.idle c < here.idle c := lexeme_idle hw
      rw [hw, List.drop_zero, stepsLeft]
      omega
    · have hshort := stepsLeft_le l.next ((c :: cs).drop l.width)
      rw [List.length_drop, List.length_cons] at hshort
      omega

theorem flatMap_lexemes (here : Context) (t : Text) :
    (here.lexemes t).flatMap Prod.snd = t := by
  induction here, t using lexemes.induct with
  | case1 here => rw [lexemes, List.flatMap_nil]
  | case2 here c cs l ih =>
    rw [lexemes_cons, List.flatMap_cons]
    exact (congrArg _ ih).trans (List.take_append_drop ..)

/-- Of the first three lexemes one takes characters: while none is taken, all three are read before
the same character. -/
theorem width_pos_of_lexemes {here : Context} {t : Text} {x y z : Lexeme × Text}
    {later : List (Lexeme × Text)} (h : here.lexemes t = x :: y :: z :: later) :
    0 < x.1.width + y.1.width + z.1.width := by
  by_contra hzero
  cases t with
  | nil =>
    rw [lexemes] at h
    cases h
  | cons c cs =>
    have hx : x.1.width = 0 := by omega
    have hy : y.1.width = 0 := by omega
    have hz : z.1.width = 0 := by omega
    rw [lexemes_cons] at h
    obtain ⟨rfl, h₁⟩ := List.cons_eq_cons.mp h
    rw [hx, List.drop_zero, lexemes_cons] at h₁
    obtain ⟨rfl, h₂⟩ := List.cons_eq_cons.mp h₁
    rw [hy, List.drop_zero, lexemes_cons] at h₂
    obtain ⟨rfl, -⟩ := List.cons_eq_cons.mp h₂
    have := here.idle_le_two c
    have := lexeme_idle hx
    have := lexeme_idle hy
    have := lexeme_idle hz
    omega

theorem width_pos_of_infix {here : Context} {t : Text} {x y z : Lexeme × Text}
    (h : [x, y, z] <:+: here.lexemes t) : 0 < x.1.width + y.1.width + z.1.width := by
  induction here, t using lexemes.induct with
  | case1 here =>
    rw [lexemes] at h
    cases List.infix_nil.mp h
  | case2 here c cs l ih =>
    rw [lexemes_cons] at h
    rcases List.infix_cons_iff.mp h with ⟨later, h⟩ | h
    · exact width_pos_of_lexemes ((lexemes_cons here c cs).trans h.symm)
    · exact ih h

end Context

end TemplateMarkup
