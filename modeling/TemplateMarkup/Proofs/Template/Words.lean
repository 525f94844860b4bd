/-
# Words, blanks and marks

What the readers of commands do with text: blanks are taken off the ends (`Text.trim`), the first
word is split off (`Text.splitWord`), and text is cut at the first mark (`Text.cut?`).

Only three characters matter to where a command ends, the two quotes and the closing brace.  `marks`
keeps these and drops the others; whether text may stand in a command is decided by its marks alone
(`unbraced_marks`), so blanks may be put in or taken out anywhere.
-/
import TemplateMarkup.Proofs.Html.Stretches
import TemplateMarkup.Proofs.Template.Cuts

namespace TemplateMarkup

/-! ## 1. Marks -/

/-- A quote or a closing brace. -/
def isMark (c : Char) : Bool := c == '}' || c == '\'' || c == '"'

/-- The quotes and closing braces of the text. -/
def marks (t : Text) : Text := t.filter isMark

@[simp] theorem marks_nil : marks [] = [] := rfl

@[simp] theorem marks_append (t u : Text) : marks (t ++ u) = marks t ++ marks u :=
  List.filter_append ..

theorem marks_cons_of_not {c : Char} (hc : isMark c = false) (t : Text) : marks (c :: t) = marks t :=
  List.filter_cons_of_neg (by simp [hc])

theorem isMark_of_quote {c : Char} (h : isQuote c) : isMark c = true := by
  rcases h with rfl | rfl <;> decide

theorem not_isMark_of_isBlank {c : Char} (h : isBlank c = true) : isMark c = false := by
  cases hc : isMark c with
  | false => rfl
  | true =>
    simp only [isMark, Bool.or_eq_true, beq_iff_eq] at hc
    rcases hc with (rfl | rfl) | rfl <;> revert h <;> decide

/-- Blanks are no marks. -/
theorem marks_of_blank {t : Text} (h : t.all isBlank = true) : marks t = [] := by
  rw [marks, List.filter_eq_nil_iff]
  intro c hc
  rw [not_isMark_of_isBlank (List.all_eq_true.mp h c hc)]
  nofun

theorem unbraced_cons_quote {q : Char} (hq : isQuote q) {t : Text} :
    Unbraced (q :: t) ↔ UnbracedAfter (some q) t := by
  constructor
  · intro h
    cases h with
    | char _ hnq _ => exact absurd hq hnq
    | literal _ hinner ht => exact ⟨_, _, rfl, hinner, ht⟩
  · rintro ⟨inner, t', rfl, hinner, ht⟩
    exact .literal hq hinner ht

theorem unbraced_cons_char {c : Char} (hc : isMark c = false) {t : Text} :
    Unbraced (c :: t) ↔ Unbraced t := by
  have hq : ¬ isQuote c := fun h => by simp [isMark_of_quote h] at hc
  constructor
  · intro h
    cases h with
    | char _ _ ht => exact ht
    | literal h _ _ => exact absurd h hq
  · exact .char (by rintro rfl; cases hc) hq

theorem not_unbraced_brace (t : Text) : ¬ Unbraced ('}' :: t) := by
  intro h
  cases h with
  | char h _ _ => exact h rfl
  | literal h _ _ => rcases h with h | h <;> revert h <;> decide

theorem unbracedAfter_quote {q : Char} {t : Text} :
    UnbracedAfter (some q) (q :: t) ↔ Unbraced t := by
  constructor
  · rintro ⟨inner, t', he, hinner, ht⟩
    cases inner with
    | nil => cases he; exact ht
    | cons c inner => cases he; exact absurd List.mem_cons_self hinner
  · exact fun ht => ⟨[], t, rfl, List.not_mem_nil, ht⟩

theorem unbracedAfter_char {q c : Char} (hc : c ≠ q) {t : Text} :
    UnbracedAfter (some q) (c :: t) ↔ UnbracedAfter (some q) t := by
  constructor
  · rintro ⟨inner, t', he, hinner, ht⟩
    cases inner with
    | nil => cases he; exact absurd rfl hc
    | cons d inner => cases he; exact ⟨inner, t', rfl, fun h => hinner (List.mem_cons_of_mem _ h), ht⟩
  · rintro ⟨inner, t', rfl, hinner, ht⟩
    refine ⟨c :: inner, t', rfl, fun h => ?_, ht⟩
    rcases List.mem_cons.mp h with rfl | h
    · exact hc rfl
    · exact hinner h

/-- **Text may stand in a command if its marks may.** -/
theorem unbracedAfter_marks : ∀ {quote : Option Char} (_ : ∀ q ∈ quote, isQuote q) {t : Text},
    UnbracedAfter quote (marks t) ↔ UnbracedAfter quote t
  | _, _, [] => Iff.rfl
  | none, h, c :: t => by
    cases hc : isMark c with
    | false =>
      rw [marks_cons_of_not hc]
      exact (unbracedAfter_marks h (t := t)).trans (unbraced_cons_char hc).symm
    | true =>
      have hm : marks (c :: t) = c :: marks t := List.filter_cons_of_pos hc
      rw [hm]
      by_cases hq : isQuote c
      · exact (unbraced_cons_quote hq).trans ((@unbracedAfter_marks (some c)
          (by rintro q ⟨⟩; exact hq) t).trans (unbraced_cons_quote hq).symm)
      · have hb : c = '}' := by
          simp only [isMark, Bool.or_eq_true, beq_iff_eq] at hc
          rcases hc with (rfl | rfl) | rfl
          · rfl
          · exact absurd (.inl rfl) hq
          · exact absurd (.inr rfl) hq
        subst hb
        exact iff_of_false (not_unbraced_brace _) (not_unbraced_brace _)
  | some q, h, c :: t => by
    have hmq : isMark q = true := isMark_of_quote (h q rfl)
    by_cases hcq : c = q
    · subst hcq
      have hm : marks (c :: t) = c :: marks t := List.filter_cons_of_pos hmq
      rw [hm, unbracedAfter_quote, unbracedAfter_quote]
      exact @unbracedAfter_marks none nofun t
    · rw [unbracedAfter_char hcq]
      cases hc : isMark c with
      | false =>
        rw [marks_cons_of_not hc]
        exact unbracedAfter_marks h
      | true =>
        have hm : marks (c :: t) = c :: marks t := List.filter_cons_of_pos hc
        rw [hm, unbracedAfter_char hcq]
        exact unbracedAfter_marks h

theorem unbraced_marks {t : Text} : Unbraced (marks t) ↔ Unbraced t :=
  @unbracedAfter_marks none nofun t

theorem Unbraced.of_marks {t u : Text} (h : Unbraced t) (hm : marks u = marks t) : Unbraced u :=
  unbraced_marks.mp (hm ▸ unbraced_marks.mpr h)

/-! ## 2. Blanks at the ends -/

namespace Text

/-- The text neither begins nor ends with a blank. -/
structure Trimmed (t : Text) : Prop where
  head : ∀ c ∈ t.head?, isBlank c = false
  last : ∀ c ∈ t.getLast?, isBlank c = false

/-- Blanks are taken off the end, up to the last other character. -/
theorem trimEnd_spec : ∀ t : Text, (∃ blanks, t = trimEnd t ++ blanks ∧ blanks.all isBlank = true)
    ∧ ∀ c ∈ (trimEnd t).getLast?, isBlank c = false
  | [] => ⟨⟨[], rfl, rfl⟩, nofun⟩
  | c :: cs => by
    obtain ⟨⟨blanks, hcs, hblanks⟩, hlast⟩ := trimEnd_spec cs
    rw [trimEnd]
    cases ht : trimEnd cs with
    | nil =>
      rw [ht] at hcs
      by_cases hc : isBlank c = true
      · simp only [hc, if_true]
        exact ⟨⟨c :: cs, rfl, by rw [hcs]; simpa [hc] using hblanks⟩, nofun⟩
      · simp only [hc]
        exact ⟨⟨cs, rfl, by rw [hcs]; simpa using hblanks⟩, by simpa using hc⟩
    | cons d ds =>
      rw [ht] at hcs hlast
      exact ⟨⟨blanks, by rw [hcs]; rfl, hblanks⟩, by simpa using hlast⟩

theorem trimEnd_append_blanks {blanks : Text} (hb : blanks.all isBlank = true) :
    ∀ {t : Text}, (∀ c ∈ t.getLast?, isBlank c = false) → trimEnd (t ++ blanks) = t
  | [], _ => by
    induction blanks with
    | nil => rfl
    | cons c cs ih =>
      simp only [List.all_cons, Bool.and_eq_true] at hb
      rw [List.nil_append] at ih ⊢
      rw [trimEnd, ih hb.2]
      simp [hb.1]
  | [c], h => by
    have hnil := trimEnd_append_blanks hb (t := []) nofun
    rw [List.nil_append] at hnil
    rw [List.singleton_append, trimEnd, hnil]
    simp [h c rfl]
  | c :: d :: ds, h => by
    have ih := trimEnd_append_blanks hb (t := d :: ds) (by simpa using h)
    rw [List.cons_append, trimEnd, ih]

/-- A text is its trimmed text between blanks. -/
theorem exists_trim (t : Text) : ∃ before after, t = before ++ trim t ++ after
    ∧ before.all isBlank = true ∧ after.all isBlank = true := by
  obtain ⟨blanks, hend, hblanks⟩ := (trimEnd_spec (trimStart t)).1
  refine ⟨t.takeWhile isBlank, blanks, ?_, ?_, hblanks⟩
  · rw [trim, List.append_assoc, ← hend, trimStart, List.takeWhile_append_dropWhile]
  · exact List.all_takeWhile

theorem trimmed_trim (t : Text) : Trimmed (trim t) where
  head c hc := by
    obtain ⟨blanks, hend, -⟩ := (trimEnd_spec (trimStart t)).1
    have hhead : (trimStart t).head? = some c := by
      rw [hend, List.head?_append]
      change c ∈ (trimEnd (trimStart t)).head? at hc
      rw [Option.mem_def.mp hc]
      rfl
    have := List.head?_dropWhile_not isBlank t
    rw [show t.dropWhile isBlank = trimStart t from rfl, hhead] at this
    exact this
  last := (trimEnd_spec (trimStart t)).2

/-- Blanks around a trimmed text are taken off. -/
theorem trim_around (before after : Text) {t : Text} (ht : Trimmed t) (hb : before.all isBlank = true)
    (ha : after.all isBlank = true) : trim (before ++ t ++ after) = t := by
  have hstart : trimStart (before ++ t ++ after) = trimStart (t ++ after) := by
    rw [List.append_assoc]
    exact List.dropWhile_append_of_pos fun c hc => List.all_eq_true.mp hb c hc
  rw [trim, hstart]
  cases t with
  | nil =>
    have hnil : trimStart ([] ++ after) = [] :=
      List.dropWhile_eq_nil_iff.mpr fun c hc => List.all_eq_true.mp ha c hc
    rw [hnil]
    rfl
  | cons c cs =>
    have hsame : trimStart (c :: cs ++ after) = c :: cs ++ after :=
      List.dropWhile_cons_of_neg (by simp [ht.head c rfl])
    rw [hsame, trimEnd_append_blanks ha ht.last]

theorem trim_of_trimmed {t : Text} (ht : Trimmed t) : trim t = t := by
  simpa using trim_around [] [] ht rfl rfl

end Text

theorem marks_trim (t : Text) : marks (Text.trim t) = marks t := by
  obtain ⟨before, after, ht, hb, ha⟩ := Text.exists_trim t
  have h := congrArg marks ht
  rw [marks_append, marks_append, marks_of_blank hb, marks_of_blank ha, List.append_nil,
    List.nil_append] at h
  exact h.symm

namespace Text

/-! ## 3. Words -/

/-- The text is a single word: blanks that separate words are not in it. -/
def IsWord (t : Text) : Prop := t.all (fun c => !isAsciiBlank c) = true

theorem run_eq_takeWhile (p : Char → Bool) (t : Text) : run p t = (t.takeWhile p).length := by
  induction t with
  | nil => rfl
  | cons c cs ih =>
    rw [run, List.takeWhile_cons]
    split <;> simp [*]

theorem splitWord_eq (t : Text) : splitWord t
    = (t.takeWhile fun c => !isAsciiBlank c, trim (t.dropWhile fun c => !isAsciiBlank c)) := by
  have happ := List.takeWhile_append_dropWhile (p := fun c => !isAsciiBlank c) (l := t)
  rw [splitWord, run_eq_takeWhile]
  refine Prod.ext ?_ (congrArg trim ?_)
  · exact (congrArg (List.take _) happ.symm).trans List.take_left
  · exact (congrArg (List.drop _) happ.symm).trans List.drop_left

theorem isWord_splitWord (t : Text) : IsWord (splitWord t).1 := by
  rw [splitWord_eq]
  exact List.all_takeWhile

theorem trimmed_splitWord (t : Text) : Trimmed (splitWord t).2 := by
  rw [splitWord_eq]
  exact trimmed_trim _

/-- A word is split off before a blank that separates words. -/
theorem splitWord_append {word rest : Text} (hw : IsWord word)
    (hrest : rest.head?.all isAsciiBlank = true) : splitWord (word ++ rest) = (word, trim rest) := by
  have hpos : ∀ c ∈ word, (!isAsciiBlank c) = true := fun c hc => List.all_eq_true.mp hw c hc
  rw [splitWord_eq, List.takeWhile_append_of_pos hpos, List.dropWhile_append_of_pos hpos]
  cases rest with
  | nil => simp
  | cons c cs =>
    have hc : isAsciiBlank c = true := by simpa using hrest
    rw [List.takeWhile_cons_of_neg (by simp [hc]), List.dropWhile_cons_of_neg (by simp [hc]),
      List.append_nil]

end Text

theorem marks_splitWord (t : Text) :
    marks (Text.splitWord t).1 ++ marks (Text.splitWord t).2 = marks t := by
  rw [Text.splitWord_eq, marks_trim, ← marks_append, List.takeWhile_append_dropWhile]

namespace Text

/-! ## 4. Cuts -/

/-- A search finds the first place. -/
theorem not_of_seek_lt {here : Text → Bool} : ∀ {t : Text} {n : Nat}, seek here t = some n →
    ∀ m < n, here (t.drop m) = false
  | [], _, h, _, _ => by simp [seek] at h
  | c :: cs, n, h, m, hm => by
    rw [seek] at h
    split at h
    · cases h
      exact absurd hm (Nat.not_lt_zero m)
    · next hc =>
      obtain ⟨k, hk, rfl⟩ := Option.map_eq_some_iff.mp h
      cases m with
      | zero => simpa using hc
      | succ m => exact not_of_seek_lt hk m (by omega)

/-- A mark does not reach over a character that is not in it. -/
theorem beginsWith_append_cons {c : Char} {u : Text} : ∀ {mark t : Text}, c ∉ mark → mark ≠ [] →
    beginsWith mark (t ++ c :: u) = beginsWith mark t
  | [], _, _, h => absurd rfl h
  | l :: mark, [], hc, _ => by
    have hl : l ≠ c := fun e => hc (e ▸ List.mem_cons_self)
    simp [beginsWith, after?, hl]
  | l :: mark, d :: t, hc, _ => by
    by_cases hmark : mark = []
    · subst hmark
      by_cases hl : l = d <;> simp [beginsWith, after?, hl]
    · have ih := beginsWith_append_cons (t := t) (u := u)
        (fun h => hc (List.mem_cons_of_mem _ h)) hmark
      by_cases hl : l = d
      · simpa [beginsWith, after?, hl] using ih
      · simp [beginsWith, after?, hl]

theorem seek_append_cons {mark : Text} {c : Char} (hc : c ∉ mark) (hmark : mark ≠ []) (u : Text) :
    ∀ t : Text, seek (beginsWith mark) (t ++ c :: u)
      = match seek (beginsWith mark) t with
        | some n => some n
        | none => (seek (beginsWith mark) u).map (· + (t.length + 1))
  | [] => by
    have hb := beginsWith_append_cons (t := []) (u := u) hc hmark
    have hnil : beginsWith mark [] = false := by
      cases mark with
      | nil => exact absurd rfl hmark
      | cons l mark => rfl
    rw [List.nil_append, hnil] at hb
    simp [seek, hb]
  | d :: t => by
    have ih := seek_append_cons hc hmark u t
    rw [List.cons_append, seek, seek, ih, ← List.cons_append, beginsWith_append_cons hc hmark]
    split
    · rfl
    · cases seek (beginsWith mark) t with
      | some n => rfl
      | none =>
        rw [Option.map_map]
        refine congrFun (congrArg Option.map (funext fun k => ?_)) _
        simp only [Function.comp, List.length_cons]
        omega

/-- **A cut on either side of a character that is not in the mark.** -/
theorem cut?_append_cons {mark : Text} {c : Char} (hc : c ∉ mark) (hmark : mark ≠ [])
    (t u : Text) : cut? mark (t ++ c :: u)
      = match cut? mark t with
        | some (p, q) => some (p, q ++ c :: u)
        | none => (cut? mark u).map fun r => (t ++ c :: r.1, r.2) := by
  rw [cut?, cut?, cut?, seek_append_cons hc hmark]
  cases hs : seek (beginsWith mark) t with
  | some n =>
    obtain ⟨hb, hn⟩ := of_seek_eq_some hs
    have hlen := length_le_of_beginsWith hb
    rw [List.length_drop] at hlen
    simp only [Option.map_some, Option.some.injEq, Prod.mk.injEq]
    exact ⟨List.take_append_of_le_length (by omega), List.drop_append_of_le_length (by omega)⟩
  | none =>
    simp only [Option.map_none, Option.map_map]
    refine congrFun (congrArg Option.map (funext fun n => ?_)) _
    simp only [Function.comp, Prod.mk.injEq]
    have htake : (t ++ c :: u).take (n + (t.length + 1)) = t ++ c :: u.take n := by
      rw [List.take_append, List.take_of_length_le (by omega),
        show n + (t.length + 1) - t.length = n + 1 by omega, List.take_succ_cons]
    have hdrop : (t ++ c :: u).drop (n + (t.length + 1) + mark.length)
        = u.drop (n + mark.length) := by
      rw [List.drop_append, List.drop_of_length_le (by omega),
        show n + (t.length + 1) + mark.length - t.length = n + mark.length + 1 by omega,
        List.drop_succ_cons, List.nil_append]
    exact ⟨htake, hdrop⟩

/-- A text with a cut is what is before the mark, the mark, and what is behind it. -/
theorem eq_of_cut? {mark t p q : Text} (h : cut? mark t = some (p, q)) : t = p ++ mark ++ q := by
  obtain ⟨n, hn, he⟩ := Option.map_eq_some_iff.mp h
  cases he
  obtain ⟨hb, -⟩ := of_seek_eq_some hn
  obtain ⟨rest, hrest⟩ := Option.isSome_iff_exists.mp hb
  have hdrop := eq_append_of_after? hrest
  rw [List.append_assoc, ← List.drop_drop, hdrop, List.drop_left, ← hdrop,
    List.take_append_drop]

/-- A cut at a character is at the first one. -/
theorem cut?_char {c : Char} {t u : Text} (ht : c ∉ t) : cut? [c] (t ++ c :: u) = some (t, u) := by
  induction t with
  | nil => simp [cut?, seek, beginsWith, after?]
  | cons d t ih =>
    have hd : c ≠ d := fun e => ht (e ▸ List.mem_cons_self)
    have hrec := ih fun h => ht (List.mem_cons_of_mem _ h)
    rw [cut?, Option.map_eq_some_iff] at hrec ⊢
    obtain ⟨n, hn, he⟩ := hrec
    refine ⟨n + 1, ?_, ?_⟩
    · rw [List.cons_append, seek, if_neg (by simp [beginsWith, after?, hd]), hn]
      rfl
    · simp only [Prod.mk.injEq, List.length_singleton, List.cons_append, List.take_succ_cons,
        List.drop_succ_cons] at he ⊢
      exact ⟨by rw [he.1], he.2⟩

/-- Before it there is none. -/
theorem not_mem_of_cut? {c : Char} {t p q : Text} (h : cut? [c] t = some (p, q)) : c ∉ p := by
  obtain ⟨n, hn, he⟩ := Option.map_eq_some_iff.mp h
  cases he
  intro hm
  obtain ⟨i, hi, hc⟩ := List.getElem_of_mem hm
  have hfalse := not_of_seek_lt hn i (by simp at hi; omega)
  have hlt : i < t.length := by simp at hi; omega
  rw [List.getElem_take] at hc
  rw [List.drop_eq_getElem_cons hlt, hc] at hfalse
  simp [beginsWith, after?] at hfalse

theorem not_mem_of_cut?_none {c : Char} {t : Text} (h : cut? [c] t = none) : c ∉ t := by
  intro hm
  obtain ⟨p, q, rfl, hp⟩ := List.eq_append_cons_of_mem hm
  rw [cut?_char hp] at h
  cases h

@[simp] theorem after?_self : ∀ lead rest : Text, after? lead (lead ++ rest) = some rest
  | [], _ => rfl
  | l :: lead, rest => by rw [List.cons_append, after?, if_pos rfl, after?_self lead rest]

/-- A text is cut at a mark before which there is none. -/
theorem cut?_of_first {mark p q : Text} (hmark : mark ≠ [])
    (h : ∀ s, s ≠ [] → s <:+ p → beginsWith mark (s ++ (mark ++ q)) = false) :
    cut? mark (p ++ (mark ++ q)) = some (p, q) := by
  induction p with
  | nil =>
    have hseek : seek (beginsWith mark) (mark ++ q) = some 0 := by
      cases mark with
      | nil => exact absurd rfl hmark
      | cons l mark =>
        rw [List.cons_append, seek, if_pos]
        rw [← List.cons_append, beginsWith, after?_self]
        rfl
    rw [List.nil_append, cut?, hseek]
    simp
  | cons c p ih =>
    have ih := ih fun s hs hp => h s hs (hp.trans (List.suffix_cons c p))
    rw [cut?, Option.map_eq_some_iff] at ih ⊢
    obtain ⟨n, hn, he⟩ := ih
    refine ⟨n + 1, ?_, ?_⟩
    · rw [List.cons_append, seek, if_neg, hn]
      · rfl
      · rw [← List.cons_append, h (c :: p) (List.cons_ne_nil c p) (List.suffix_refl _)]
        exact Bool.false_ne_true
    · simp only [Prod.mk.injEq, List.cons_append, List.take_succ_cons] at he ⊢
      refine ⟨by rw [he.1], ?_⟩
      rw [show n + 1 + mark.length = n + mark.length + 1 by omega, List.drop_succ_cons]
      exact he.2

end Text

end TemplateMarkup
