/-
# Lexemes that straddle the end of a text

Reading stops at the end of a text and goes on in the next one from the context it had reached.
Nothing but the context is carried over, so what is told by more than one character may come out
differently there: a `<` with `!--` behind it, `-->`, `]]>`, `/>`, and the close tag of an element
whose body is text.

All of these begin with one of four characters (`looksAhead`), and `</textarea` with its ten bytes is
the longest that is undecided.  So where none of the last ten bytes of a text is such a character
(`Text.endsClear`), text behind it changes no lexeme but one that reaches up to the end, and that one
is cut in two (`Context.lexeme_append`).
-/
import TemplateMarkup.Proofs.Html.Stretches

namespace TemplateMarkup

/-! ## 1. The end of a text -/

/-- Characters that begin what only more characters can tell. -/
def looksAhead (c : Char) : Bool := c == '<' || c == '-' || c == ']' || c == '/'

namespace Text

/-- None of the last ten bytes of the text begins what only more characters can tell. -/
def endsClear : Text → Bool
  | [] => true
  | c :: cs => (!looksAhead c || 10 < size (c :: cs)) && endsClear cs

/-- No suffix of at most ten bytes begins with such a character. -/
theorem endsClear_iff {t : Text} : endsClear t = true ↔ ∀ before c after, t = before ++ c :: after →
    size (c :: after) ≤ 10 → looksAhead c = false := by
  induction t with
  | nil => simp [endsClear]
  | cons d ds ih =>
    rw [endsClear, Bool.and_eq_true, ih]
    constructor
    · rintro ⟨hd, hds⟩ before c after heq hsize
      rcases List.cons_eq_append_iff.mp heq with ⟨-, hcons⟩ | ⟨rest, -, hds'⟩
      · cases hcons
        rwa [decide_eq_false (Nat.not_lt.mpr hsize), Bool.or_false, Bool.not_eq_true'] at hd
      · exact hds rest c after hds' hsize
    · intro h
      refine ⟨?_, fun before c after heq => h (d :: before) c after (by rw [heq, List.cons_append])⟩
      cases hd : looksAhead d with
      | false => rfl
      | true =>
        refine decide_eq_true (Nat.lt_of_not_le fun hsize => ?_)
        rw [h [] d ds rfl hsize] at hd
        cases hd

theorem endsClear_of_append {s t : Text} (h : endsClear (s ++ t) = true) : endsClear t = true := by
  rw [endsClear_iff] at h ⊢
  intro before c after heq
  exact h (s ++ before) c after (by rw [heq, List.append_assoc])

theorem endsClear_drop {t : Text} (h : endsClear t = true) (n : Nat) :
    endsClear (t.drop n) = true := by
  rw [← List.take_append_drop n t] at h
  exact endsClear_of_append h

theorem lt_size_of_endsClear {c : Char} {cs : Text} (h : endsClear (c :: cs) = true)
    (hc : looksAhead c = true) : 10 < size (c :: cs) := by
  refine Nat.lt_of_not_le fun hsize => ?_
  rw [endsClear_iff.mp h [] c cs rfl hsize] at hc
  cases hc

/-! ## 2. Text behind a text -/

theorem sameLetter_size {a b : Char} (h : sameLetter a b = true) : a.utf8Size = b.utf8Size := by
  have hlower (c : Char) : c.toLower.utf8Size = c.utf8Size := by
    unfold Char.toLower
    split
    · next hc =>
      have hle : c.val.toNat ≤ 90 := UInt32.le_iff_toNat_le.mp hc.2
      have hc1 : c.utf8Size = 1 := by
        rw [Char.utf8Size_eq_one_iff, UInt32.le_iff_toNat_le]
        exact Nat.le_trans hle (by decide)
      rw [hc1, Char.utf8Size_eq_one_iff, UInt32.le_iff_toNat_le, UInt32.toNat_add]
      exact Nat.le_trans (Nat.mod_le _ _) (Nat.le_trans (Nat.add_le_add_right hle 32) (by decide))
    · rfl
  rw [← hlower a, ← hlower b, beq_iff_eq.mp h]

/-- Text behind a text that is large enough does not change what follows a beginning of it. -/
theorem after?_append_of_size_le {lead s : Text} (h : lead.size ≤ s.size) (u : Text) :
    after? lead (s ++ u) = (after? lead s).map (· ++ u) := by
  induction lead generalizing s with
  | nil => rfl
  | cons l lead ih =>
    cases s with
    | nil =>
      have := l.utf8Size_pos
      simp only [size_cons, size_nil] at h
      omega
    | cons c s =>
      rw [List.cons_append, after?, after?]
      split
      · next hc =>
        subst hc
        exact ih (by simpa using h)
      · rfl

theorem beginsWith_append_of_size_le {lead s : Text} (h : lead.size ≤ s.size) (u : Text) :
    beginsWith lead (s ++ u) = beginsWith lead s := by
  rw [beginsWith, beginsWith, after?_append_of_size_le h, Option.isSome_map]

/-- The same, letter case aside. -/
theorem afterAnyCase?_append_of_size_le {lead s : Text} (h : lead.size ≤ s.size) (u : Text) :
    afterAnyCase? lead (s ++ u) = (afterAnyCase? lead s).map (· ++ u) := by
  induction lead generalizing s with
  | nil => rfl
  | cons l lead ih =>
    cases s with
    | nil =>
      have := l.utf8Size_pos
      simp only [size_cons, size_nil] at h
      omega
    | cons c s =>
      rw [List.cons_append, afterAnyCase?, afterAnyCase?]
      split
      · next hc =>
        rw [size_cons, size_cons, sameLetter_size hc] at h
        exact ih (by omega)
      · rfl

theorem size_of_afterAnyCase? {lead t rest : Text} (h : afterAnyCase? lead t = some rest) :
    t.size = lead.size + rest.size := by
  induction lead generalizing t with
  | nil =>
    cases h
    exact (Nat.zero_add _).symm
  | cons l lead ih =>
    cases t with
    | nil => cases h
    | cons c t =>
      rw [afterAnyCase?] at h
      split at h
      · next hc => rw [size_cons, size_cons, sameLetter_size hc, ih h, Nat.add_assoc]
      · cases h

/-- Where a text ends clear, nothing begins that text behind it would complete. -/
theorem beginsWith_append_of_endsClear {l c : Char} {lead cs : Text} (hl : looksAhead l = true)
    (hlead : size (l :: lead) ≤ 10) (h : endsClear (c :: cs) = true) (u : Text) :
    beginsWith (l :: lead) (c :: cs ++ u) = beginsWith (l :: lead) (c :: cs) := by
  by_cases hc : l = c
  · subst hc
    exact beginsWith_append_of_size_le
      (Nat.le_trans hlead (Nat.le_of_lt (lt_size_of_endsClear h hl))) u
  · simp [beginsWith, after?, hc]

/-- A search goes on behind a text, if nothing that it finds straddles the end. -/
theorem seek_append_of_endsClear {here : Text → Bool} {u : Text}
    (hu : ∀ {c : Char} {cs : Text}, endsClear (c :: cs) = true →
      here (c :: cs ++ u) = here (c :: cs)) :
    ∀ {t : Text}, endsClear t = true →
      seek here (t ++ u) = (seek here t).or ((seek here u).map (· + t.length))
  | [], _ => by
    rw [List.nil_append, seek, Option.none_or, List.length_nil]
    cases seek here u <;> rfl
  | c :: cs, h => by
    have hnext := hu h
    rw [List.cons_append] at hnext ⊢
    rw [seek, seek, hnext]
    split
    · rfl
    · rw [seek_append_of_endsClear hu (endsClear_of_append (s := [c]) h)]
      cases seek here cs <;> cases seek here u <;> rfl

/-- A run ends before the end of a text, or goes on behind it. -/
theorem run_append_cons (p : Char → Bool) (t : Text) (d : Char) (ds : Text) :
    run p (t ++ d :: ds) = run p t
      ∨ (run p t = t.length ∧ p d = true ∧ run p (t ++ d :: ds) = t.length + run p (d :: ds)) := by
  induction t with
  | nil =>
    cases hd : p d with
    | false =>
      refine .inl ?_
      rw [List.nil_append, run, run, if_neg (by rw [hd]; exact Bool.false_ne_true)]
    | true => exact .inr ⟨rfl, rfl, (Nat.zero_add _).symm⟩
  | cons c t ih =>
    rw [List.cons_append, run, run]
    split
    · rcases ih with h | ⟨h, hd, hlen⟩
      · exact .inl (congrArg (· + 1) h)
      · refine .inr ⟨congrArg (· + 1) h, hd, ?_⟩
        rw [hlen, List.length_cons]
        omega
    · exact .inl rfl

end Text

/-! ## 3. A lexeme in two parts -/

/-- A lexeme that takes the last `m` characters of a text and more behind them, in two parts: what it
is without the text behind, what is read behind it, and what it is in one. -/
inductive Context.CutAt : Context → Nat → Lexeme → Lexeme → Lexeme → Prop
  | content {here : Context} {m : Nat} (next : Context) (n : Nat) :
      CutAt here m (.content here m) (.content next n) (.content next (m + n))
  | name {part : NamePart} {m : Nat} (n : Nat) :
      CutAt (.tagName part) m (.marking .tagNameChars (.tagName .static) m)
        (.marking .tagNameChars (.tagName .static) n)
        (.marking .tagNameChars (.tagName .static) (m + n))
  | skip {here : Context} {m : Nat} (n : Nat) (hd : here.discards = false) :
      CutAt here m (.marking .skip here m) (.marking .skip here n) (.marking .skip here (m + n))

/-- Text behind a text does not change the lexeme at its `c`, or the lexeme is cut in two at the end
of the text. -/
def Context.Resumes (here : Context) (c : Char) (cs : Text) (d : Char) (ds : Text) : Prop :=
  here.lexeme c (cs ++ d :: ds) = here.lexeme c cs
    ∨ here.CutAt (cs.length + 1) (here.lexeme c cs) ((here.lexeme c cs).next.lexeme d ds)
      (here.lexeme c (cs ++ d :: ds))

namespace Context.Resumes

variable {here : Context} {c d : Char} {cs ds : Text}

theorem of_content {next : Context} {n : Nat}
    (hfirst : here.lexeme c cs = .content here (cs.length + 1))
    (hsecond : here.lexeme d ds = .content next n)
    (hwhole : here.lexeme c (cs ++ d :: ds) = .content next (cs.length + 1 + n)) :
    here.Resumes c cs d ds := by
  refine .inr ?_
  rw [hfirst, hwhole]
  have hnext : (Lexeme.content here (cs.length + 1)).next = here := rfl
  rw [hnext, hsecond]
  exact .content next n

theorem of_skip {n : Nat} (hd : here.discards = false)
    (hfirst : here.lexeme c cs = .marking .skip here (cs.length + 1))
    (hsecond : here.lexeme d ds = .marking .skip here n)
    (hwhole : here.lexeme c (cs ++ d :: ds) = .marking .skip here (cs.length + 1 + n)) :
    here.Resumes c cs d ds := by
  refine .inr ?_
  rw [hfirst, hwhole]
  have hnext : (Lexeme.marking .skip here (cs.length + 1)).next = here := rfl
  rw [hnext, hsecond]
  exact .skip n hd

end Context.Resumes

namespace Lexeme

variable {c d : Char} {cs ds : Text}

theorem atAngle_append (h : 10 ≤ cs.size) (u : Text) : atAngle (cs ++ u) = atAngle cs := by
  have hbegins {lead : Text} (hlead : lead.size ≤ 10) :
      Text.beginsWith lead (cs ++ u) = Text.beginsWith lead cs :=
    Text.beginsWith_append_of_size_le (Nat.le_trans hlead h) u
  unfold atAngle
  rw [hbegins (by decide), hbegins (by decide), hbegins (by decide), hbegins (by decide)]
  refine ite_congr rfl (fun _ => rfl) fun _ => ite_congr rfl (fun _ => rfl) fun _ =>
    ite_congr rfl (fun _ => rfl) fun _ => ?_
  match cs, h with
  | [], h => cases h
  | [e], h =>
    have := e.utf8Size_le_four
    simp only [Text.size_cons, Text.size_nil] at h
    omega
  | e :: f :: es, _ =>
    by_cases he : e = '/'
    · subst he
      rfl
    · simp [he]

theorem closesElement_append (e : Rcdata) (h : Text.endsClear (c :: cs) = true) (u : Text) :
    closesElement e (c :: cs ++ u) = closesElement e (c :: cs) := by
  have hname : Text.size e.name.toList ≤ 8 := by cases e <;> decide
  unfold closesElement
  by_cases hc : c = '<'
  · have hsize := Text.lt_size_of_endsClear h (by rw [hc]; rfl)
    have hopen : Text.size ['<', '/'] = 2 := rfl
    rw [Text.after?_append_of_size_le (by omega)]
    cases hafter : Text.after? ['<', '/'] (c :: cs) with
    | none => rfl
    | some r =>
      rw [Text.eq_append_of_after? hafter, Text.size_append] at hsize
      rw [Option.map_some, Option.bind_some, Option.bind_some,
        Text.afterAnyCase?_append_of_size_le (by omega)]
      cases hrest : Text.afterAnyCase? e.name.toList r with
      | none => rfl
      | some rest =>
        cases rest with
        | nil =>
          have := Text.size_of_afterAnyCase? hrest
          rw [Text.size_nil] at this
          omega
        | cons d ds => rfl
  · have hnone (s : Text) : Text.after? ['<', '/'] (c :: s) = none := by
      rw [Text.after?, if_neg fun he => hc he.symm]
    rw [List.cons_append, hnone, hnone]

end Lexeme

/-! ## 4. Context by context -/

namespace Context

variable {here : Context} {c : Char} {cs : Text}

section Runs

variable {p : Char → Bool} (hc : p c = true) (d : Char) (ds : Text)

include hc

/-- Content of a class of characters is cut anywhere. -/
theorem resumes_of_run
    (hl : ∀ c cs, p c = true → here.lexeme c cs = .content here (Text.run p (c :: cs))) :
    here.Resumes c cs d ds := by
  rcases Text.run_append_cons p (c :: cs) d ds with hrun | ⟨hrun, hd, hlen⟩
  · refine .inl ?_
    rw [hl c _ hc, hl c _ hc, ← hrun, List.cons_append]
  · refine .of_content ?_ (hl d ds hd) ?_
    · rw [hl c _ hc, hrun, List.length_cons]
    · rw [hl c _ hc, ← List.cons_append, hlen, List.length_cons]

/-- So is what is passed over. -/
theorem resumes_of_run_skip (hd : here.discards = false)
    (hl : ∀ c cs, p c = true → here.lexeme c cs = .marking .skip here (Text.run p (c :: cs))) :
    here.Resumes c cs d ds := by
  rcases Text.run_append_cons p (c :: cs) d ds with hrun | ⟨hrun, hpd, hlen⟩
  · refine .inl ?_
    rw [hl c _ hc, hl c _ hc, ← hrun, List.cons_append]
  · refine .of_skip hd ?_ (hl d ds hpd) ?_
    · rw [hl c _ hc, hrun, List.length_cons]
    · rw [hl c _ hc, ← List.cons_append, hlen, List.length_cons]

end Runs

section Searches

variable {found : Text → Bool} {d : Char} {ds : Text}

/-- The lexeme `n` characters before a mark: content up to it, or the mark. -/
def upTo (here : Context) (mark : Lexeme) : Nat → Lexeme
  | 0 => mark
  | n + 1 => .content here (n + 1)

/-- Text up to what is searched for is cut anywhere, if that does not straddle the cut; `ahead n` is
the lexeme `n` characters before it. -/
theorem resumes_of_seek (ahead : Nat → Lexeme)
    (hl : ∀ c cs, here.lexeme c cs
      = (Text.seek found (c :: cs)).elim (.content here (c :: cs).length) ahead)
    (hahead : ∀ m n, 0 < m → ahead (m + n) = .content here m
      ∨ ∃ next k, ahead n = .content next k ∧ ahead (m + n) = .content next (m + k))
    (hfound : ∀ {c : Char} {cs : Text}, Text.endsClear (c :: cs) = true →
      found (c :: cs ++ d :: ds) = found (c :: cs))
    (h : Text.endsClear (c :: cs) = true) : here.Resumes c cs d ds := by
  have hseek := Text.seek_append_of_endsClear hfound h
  rw [List.cons_append] at hseek
  cases hfirst : Text.seek found (c :: cs) with
  | some n =>
    rw [hfirst, Option.some_or] at hseek
    refine .inl ?_
    rw [hl, hl, hfirst, hseek]
    rfl
  | none =>
    rw [hfirst, Option.none_or] at hseek
    have hcs : here.lexeme c cs = .content here (cs.length + 1) := by
      rw [hl, hfirst]
      rfl
    cases hsecond : Text.seek found (d :: ds) with
    | none =>
      rw [hsecond, Option.map_none] at hseek
      have hds : here.lexeme d ds = .content here (d :: ds).length := by
        rw [hl, hsecond]
        rfl
      refine .of_content hcs hds ?_
      rw [hl, hseek, ← List.cons_append]
      exact congrArg (Lexeme.content here) List.length_append
    | some n =>
      rw [hsecond, Option.map_some, Nat.add_comm] at hseek
      rcases hahead (c :: cs).length n (Nat.succ_pos _) with hmark | ⟨next, k, hn, hwhole⟩
      · refine .inl ?_
        rw [hcs, hl, hseek, Option.elim_some, hmark]
        rfl
      · have hds : here.lexeme d ds = .content next k := by rw [hl, hsecond, Option.elim_some, hn]
        refine .of_content hcs hds ?_
        rw [hl, hseek, Option.elim_some, hwhole]
        rfl

/-- Text up to a mark. -/
theorem resumes_of_upTo (mark : Lexeme)
    (hl : ∀ c cs, here.lexeme c cs
      = (Text.seek found (c :: cs)).elim (.content here (c :: cs).length) (upTo here mark))
    (hfound : ∀ {c : Char} {cs : Text}, Text.endsClear (c :: cs) = true →
      found (c :: cs ++ d :: ds) = found (c :: cs))
    (h : Text.endsClear (c :: cs) = true) : here.Resumes c cs d ds := by
  refine resumes_of_seek (upTo here mark) hl (fun m n hm => ?_) hfound h
  cases n with
  | zero =>
    obtain ⟨m, rfl⟩ := Nat.exists_eq_succ_of_ne_zero (Nat.ne_of_gt hm)
    exact .inl rfl
  | succ n => exact .inr ⟨here, n + 1, rfl, rfl⟩

/-- Text up to a stop that belongs to it. -/
theorem resumes_of_delimited {stop : Text}
    (hl : ∀ c cs, here.lexeme c cs = Lexeme.inDelimited here stop (c :: cs))
    (hstop : ∀ {c : Char} {cs : Text}, Text.endsClear (c :: cs) = true →
      Text.beginsWith stop (c :: cs ++ d :: ds) = Text.beginsWith stop (c :: cs))
    (h : Text.endsClear (c :: cs) = true) : here.Resumes c cs d ds := by
  refine resumes_of_seek (fun n => .content .pcdata (n + stop.length)) (fun c cs => ?_)
    (fun m n _ => .inr ⟨.pcdata, n + stop.length, rfl, ?_⟩) hstop h
  · rw [hl, Lexeme.inDelimited]
    cases Text.seek (Text.beginsWith stop) (c :: cs) <;> rfl
  · exact congrArg _ (Nat.add_assoc ..)

end Searches

section Resume

variable (h : Text.endsClear (c :: cs) = true) (d : Char) (ds : Text)

include h

theorem resumes_pcdata : pcdata.Resumes c cs d ds := by
  by_cases hc : c = '<'
  · refine .inl ?_
    have hsize := Text.lt_size_of_endsClear h (by rw [hc]; rfl)
    rw [hc, Text.size_cons, Nat.add_comm] at hsize
    rw [lexeme, lexeme, Lexeme.inPcdata, Lexeme.inPcdata, if_pos hc, if_pos hc,
      Lexeme.atAngle_append (Nat.le_of_lt_succ hsize)]
  · refine resumes_of_run (p := (· != '<')) (by simpa using hc) d ds fun c cs hc => ?_
    rw [Text.run, if_pos hc, lexeme, Lexeme.inPcdata, if_neg (by simpa using hc)]

theorem resumes_inTag : beforeAttrName.Resumes c cs d ds := by
  by_cases hblank : isAsciiBlank c = true
  · refine resumes_of_run_skip hblank d ds rfl fun c cs hc => ?_
    rw [lexeme, Lexeme.inTag, if_pos hc]
  · refine .inl ?_
    have hslash : c = '/' → Text.beginsWith ['>'] (cs ++ d :: ds) = Text.beginsWith ['>'] cs := by
      intro hc
      have hsize := Text.lt_size_of_endsClear h (by rw [hc]; rfl)
      rw [hc, Text.size_cons, Nat.add_comm] at hsize
      exact Text.beginsWith_append_of_size_le
        (Nat.le_trans (by decide) (Nat.le_of_lt_succ hsize)) _
    rw [lexeme, lexeme, Lexeme.inTag, Lexeme.inTag, if_neg hblank, if_neg hblank]
    refine ite_congr rfl (fun _ => rfl) fun _ => ite_congr rfl (fun hc => ?_) fun _ => rfl
    rw [hslash hc]

omit h in
theorem resumes_tagName (part : NamePart) : (tagName part).Resumes c cs d ds := by
  -- where a name goes on it goes on as one that has begun
  have hchars {part : NamePart} (hl : ∀ cs, (tagName part).lexeme c cs
      = .marking .tagNameChars (.tagName .static) (Text.run inTagName (c :: cs))) :
      (tagName part).Resumes c cs d ds := by
    rcases Text.run_append_cons inTagName (c :: cs) d ds with hrun | ⟨hrun, hd, hlen⟩
    · refine .inl ?_
      rw [hl, hl, ← hrun, List.cons_append]
    · have hends : endsName d = false := by
        cases he : endsName d with
        | false => rfl
        | true =>
          simp only [endsName, isAsciiBlank, Bool.or_eq_true, beq_iff_eq] at he
          rcases he with (((((rfl | rfl) | rfl) | rfl) | rfl) | rfl) | rfl <;> cases hd
      have hnext : (tagName .static).lexeme d ds
          = .marking .tagNameChars (.tagName .static) (Text.run inTagName (d :: ds)) := by
        simp only [lexeme, Lexeme.inTagNameAt, hends, hd, if_true, Bool.false_eq_true, if_false]
      refine .inr ?_
      rw [hl, hl, ← List.cons_append, hlen, hrun, List.length_cons]
      have hstatic : (Lexeme.marking .tagNameChars (tagName .static) (cs.length + 1)).next
          = tagName .static := rfl
      rw [hstatic, hnext]
      exact .name _
  cases part with
  | empty =>
    by_cases hc : startsTagName c = true
    · exact hchars fun cs => by simp only [lexeme, Lexeme.inTagNameAt, if_pos hc]
    · exact .inl (by simp only [lexeme, Lexeme.inTagNameAt, if_neg hc])
  | static =>
    by_cases hend : endsName c = true
    · exact .inl (by simp only [lexeme, Lexeme.inTagNameAt, if_pos hend])
    · by_cases hc : inTagName c = true
      · exact hchars fun cs => by simp only [lexeme, Lexeme.inTagNameAt, if_neg hend, if_pos hc]
      · exact .inl (by simp only [lexeme, Lexeme.inTagNameAt, if_neg hend, if_neg hc])
  | dynamic => exact .inl rfl

omit h in
theorem resumes_beforeAttrValue : beforeAttrValue.Resumes c cs d ds := by
  by_cases hblank : isAsciiBlank c = true
  · refine resumes_of_run_skip hblank d ds rfl fun c cs hc => ?_
    rw [lexeme, Lexeme.beforeValue, if_pos hc]
  · refine .inl ?_
    rw [lexeme, lexeme, Lexeme.beforeValue, Lexeme.beforeValue, if_neg hblank, if_neg hblank]

omit h in
theorem resumes_attrValue (quotes : Quotes) : (attrValue quotes).Resumes c cs d ds := by
  cases hq : quotes.char? with
  | none =>
    by_cases hc : Lexeme.inBareValue c = true
    · refine resumes_of_run hc d ds fun c cs hc => ?_
      simp only [lexeme, Lexeme.inValue, hq, if_pos hc]
    · exact .inl (by simp only [lexeme, Lexeme.inValue, hq, if_neg hc])
  | some quote =>
    by_cases hc : c = quote
    · exact .inl (by simp only [lexeme, Lexeme.inValue, hq, if_pos hc])
    · refine resumes_of_run (p := (· != quote)) (by simpa using hc) d ds fun c cs hc => ?_
      have hc' : c ≠ quote := by simpa using hc
      simp only [lexeme, Lexeme.inValue, hq, if_neg hc']

/-- **Text behind a text that ends clear changes no lexeme of the text** but the last, which may be
cut in two. -/
theorem resumes (here : Context) : here.Resumes c cs d ds := by
  have hstop (l : Char) (lead : Text) (hl : looksAhead l = true)
      (hlead : Text.size (l :: lead) ≤ 10) {c : Char} {cs : Text}
      (h : Text.endsClear (c :: cs) = true) :
      Text.beginsWith (l :: lead) (c :: cs ++ d :: ds) = Text.beginsWith (l :: lead) (c :: cs) :=
    Text.beginsWith_append_of_endsClear hl hlead h _
  cases here with
  | pcdata => exact resumes_pcdata h d ds
  | rcdata e =>
    refine resumes_of_upTo (.tagStart true 2) (fun c cs => ?_)
      (fun hs => Lexeme.closesElement_append e hs _) h
    rw [lexeme, Lexeme.inRcdata]
    rcases Text.seek (Lexeme.closesElement e) (c :: cs) with _ | _ | n <;> rfl
  | comment =>
    refine resumes_of_upTo (.marking .commentEnd .pcdata 3) (fun c cs => ?_)
      (hstop '-' ['-', '>'] rfl (by decide)) h
    rw [lexeme, Lexeme.inComment, show "-->".toList = ['-', '-', '>'] from rfl]
    rcases Text.seek (Text.beginsWith ['-', '-', '>']) (c :: cs) with _ | _ | n <;> rfl
  | declaration =>
    refine resumes_of_delimited (fun _ _ => rfl) (fun {c cs} _ => ?_) h
    exact Text.beginsWith_append_of_size_le
      (Nat.le_trans (by decide) (Nat.le_add_right_of_le c.utf8Size_pos)) _
  | cdata => exact resumes_of_delimited (fun _ _ => rfl) (hstop ']' [']', '>'] rfl (by decide)) h
  | tagName part => exact resumes_tagName d ds part
  | beforeAttrName => exact resumes_inTag h d ds
  | attrName part sep drop => exact .inl rfl
  | beforeAttrValue => exact resumes_beforeAttrValue d ds
  | attrValue quotes => exact resumes_attrValue d ds quotes

end Resume

end Context

end TemplateMarkup
