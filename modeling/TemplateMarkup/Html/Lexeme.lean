/-
# Lexemes

A lexeme is the next thing that html text says in a context: content, or a mark such as the
start of a tag or of an attribute name, with the number of characters it takes and the context
after it.  Some lexemes take no characters: they only change the context.

No lexeme reaches past the end of the text, so a construct that something other than text
interrupts is continued from the context it had reached.  Reading always comes to the end of
the text, because a lexeme without characters goes down in `Context.rank`
(`rank_lt_of_width_eq_zero`).
-/
import TemplateMarkup.Html.Context

namespace TemplateMarkup

/-! ## 1. Lexemes -/

/-- What a lexeme marks. -/
inductive Mark
  /-- Nothing: characters without meaning inside a tag. -/
  | skip
  /-- `<`, or `</` for a close tag. -/
  | tagStart (close : Bool)
  | tagNameChars
  | tagNameEnd
  /-- What looked like a tag is content. -/
  | tagAbort
  /-- `>` or `/>`. -/
  | tagEnd (selfClosing : Bool)
  | attrNameStart
  | attrNameChar
  | attrNameEnd
  | attrEquals
  | valueStart (quotes : Quotes)
  | valueEnd
  | commentStart
  | commentEnd
deriving DecidableEq

/-- The marks that may take no characters. -/
def Mark.mayBeEmpty : Mark → Bool
  | skip | tagNameEnd | tagAbort | attrNameStart | attrNameEnd | valueStart _ | valueEnd => true
  | _ => false

/-- What is wrong with a lexeme. -/
inductive LexFault
  | illegalTagName
  | illegalAttrName
  /-- Characters of a name directly after a computed name. -/
  | expectedBlank
deriving DecidableEq

/-- The next part of a text. -/
structure Lexeme where
  /-- The context after it. -/
  next : Context
  /-- What it marks; content marks nothing. -/
  mark : Option Mark
  /-- The number of characters it takes. -/
  width : Nat
  fault : Option LexFault
deriving DecidableEq

namespace Lexeme

/-- Content of some characters. -/
def content (next : Context) (width : Nat) : Lexeme := ⟨next, none, width, none⟩

/-- A mark of some characters. -/
def marking (mark : Mark) (next : Context) (width : Nat) : Lexeme := ⟨next, some mark, width, none⟩

/-- The lexeme with a fault. -/
def faulty (l : Lexeme) (fault : LexFault) : Lexeme := { l with fault := some fault }

/-! ## 2. Content -/

/-- A tag whose name has not started. -/
def tagStart (close : Bool) (width : Nat) : Lexeme :=
  marking (.tagStart close) (.tagName .empty) width

/-- At a `<` of ordinary content; `cs` is what follows it.  At the end of the text the name may
still come from a print or a call. -/
def atAngle (cs : Text) : Lexeme :=
  if Text.beginsWith "!--".toList cs then marking .commentStart .comment 4
  else if Text.beginsWith "![CDATA[".toList cs then content .cdata 9
  else if Text.beginsWith ['!'] cs || Text.beginsWith ['?'] cs then content .declaration 2
  else
    match cs with
    | [] => tagStart false 1
    | ['/'] => tagStart true 2
    | '/' :: c :: _ =>
      if startsTagName c then tagStart true 2 else (content .pcdata 2).faulty .illegalTagName
    | c :: _ =>
      if startsTagName c then tagStart false 1 else (content .pcdata 1).faulty .illegalTagName

/-- In ordinary content. -/
def inPcdata (c : Char) (cs : Text) : Lexeme :=
  if c = '<' then atAngle cs else content .pcdata (Text.run (· != '<') cs + 1)

/-- The text begins with the close tag of an element, up to its name.  At the end of the text
the name counts as complete. -/
def closesElement (element : Rcdata) (t : Text) : Bool :=
  match (Text.after? ['<', '/'] t).bind (Text.afterAnyCase? element.name.toList) with
  | none => false
  | some [] => true
  | some (c :: _) => endsName c

/-- In an element that only its close tag ends. -/
def inRcdata (element : Rcdata) (t : Text) : Lexeme :=
  match Text.seek (closesElement element) t with
  | none => content (.rcdata element) t.length
  | some 0 => tagStart true 2
  | some n => content (.rcdata element) n

/-- In a comment. -/
def inComment (t : Text) : Lexeme :=
  match Text.seek (Text.beginsWith "-->".toList) t with
  | none => content .comment t.length
  | some 0 => marking .commentEnd .pcdata 3
  | some n => content .comment n

/-- In text that ends with `stop`, which belongs to it. -/
def inDelimited (here : Context) (stop t : Text) : Lexeme :=
  match Text.seek (Text.beginsWith stop) t with
  | none => content here t.length
  | some n => content .pcdata (n + stop.length)

/-! ## 3. Tags -/

/-- In a tag name. -/
def inTagNameAt (name : NamePart) (c : Char) (cs : Text) : Lexeme :=
  match name with
  | .empty =>
    if startsTagName c then
      marking .tagNameChars (.tagName .static) (Text.run inTagName (c :: cs))
    else (marking .tagAbort .pcdata 0).faulty .illegalTagName
  | .static =>
    if endsName c then marking .tagNameEnd .beforeAttrName 0
    else if inTagName c then
      marking .tagNameChars (.tagName .static) (Text.run inTagName (c :: cs))
    else (marking .tagAbort .pcdata 0).faulty .illegalTagName
  | .dynamic =>
    if endsName c then marking .tagNameEnd .beforeAttrName 0
    else (marking .tagNameEnd .beforeAttrName 0).faulty .expectedBlank

/-- In a tag, between attributes. -/
def inTag (c : Char) (cs : Text) : Lexeme :=
  if isAsciiBlank c then marking .skip .beforeAttrName (Text.run isAsciiBlank (c :: cs))
  else if c = '>' then marking (.tagEnd false) .pcdata 1
  else if c = '/' then
    if Text.beginsWith ['>'] cs then marking (.tagEnd true) .pcdata 2
    else marking .skip .beforeAttrName 1
  else if startsAttrName c then marking .attrNameStart (.attrName .empty false false) 0
  else (marking .attrNameStart (.attrName .empty false true) 0).faulty .illegalAttrName

/-- At the end of an attribute name. -/
def atAttrNameEnd (c : Char) : Lexeme :=
  if c = '=' then marking .attrEquals .beforeAttrValue 1
  else marking .attrNameEnd .beforeAttrName 0

/-- In an attribute name. -/
def inAttrNameAt (name : NamePart) (afterSeparator discard : Bool) (c : Char) : Lexeme :=
  let atEnd := endsName c || c == '='
  let spoiled := (marking .skip (.attrName name false true) 0).faulty .illegalAttrName
  if discard then
    if atEnd then atAttrNameEnd c else marking .skip (.attrName name false true) 1
  else
    match name with
    | .dynamic =>
      if atEnd then atAttrNameEnd c
      else (marking .attrNameEnd .beforeAttrName 0).faulty .expectedBlank
    | .empty =>
      if atEnd then if afterSeparator then spoiled else atAttrNameEnd c
      else if startsAttrName c then marking .attrNameChar (.attrName .static false false) 1
      else spoiled
    | .static =>
      if atEnd then if afterSeparator then spoiled else atAttrNameEnd c
      else if inAttrName c then marking .attrNameChar (.attrName .static false false) 1
      else if separatesAttrName c && !afterSeparator then
        marking .attrNameChar (.attrName .static true false) 1
      else spoiled

/-- After the `=` of an attribute. -/
def beforeValue (c : Char) (cs : Text) : Lexeme :=
  if isAsciiBlank c then marking .skip .beforeAttrValue (Text.run isAsciiBlank (c :: cs))
  else if c = '"' then marking (.valueStart .double) (.attrValue .double) 1
  else if c = '\'' then marking (.valueStart .single) (.attrValue .single) 1
  else marking (.valueStart .bare) (.attrValue .bare) 0

/-- Characters of a value without quotes. -/
def inBareValue (c : Char) : Bool := !isAsciiBlank c && c != '>'

/-- In an attribute value. -/
def inValue (quotes : Quotes) (c : Char) (cs : Text) : Lexeme :=
  match quotes.char? with
  | none =>
    if inBareValue c then content (.attrValue quotes) (Text.run inBareValue (c :: cs))
    else marking .valueEnd .beforeAttrName 0
  | some quote =>
    if c = quote then marking .valueEnd .beforeAttrName 1
    else content (.attrValue quotes) (Text.run (· != quote) (c :: cs))

end Lexeme

/-! ## 4. The next lexeme -/

/-- The next lexeme of the text `c :: cs`. -/
def Context.lexeme (c : Char) (cs : Text) : Context → Lexeme
  | .pcdata => Lexeme.inPcdata c cs
  | .rcdata element => Lexeme.inRcdata element (c :: cs)
  | .comment => Lexeme.inComment (c :: cs)
  | .declaration => Lexeme.inDelimited .declaration ['>'] (c :: cs)
  | .cdata => Lexeme.inDelimited .cdata "]]>".toList (c :: cs)
  | .tagName name => Lexeme.inTagNameAt name c cs
  | .beforeAttrName => Lexeme.inTag c cs
  | .attrName name afterSeparator discard => Lexeme.inAttrNameAt name afterSeparator discard c
  | .beforeAttrValue => Lexeme.beforeValue c cs
  | .attrValue quotes => Lexeme.inValue quotes c cs

/-! ## 5. Progress -/

namespace Context

/-- Counts the lexemes without characters that are left before a character that ends names. -/
def rankAtEnd : Context → Nat
  | tagName _ | attrValue _ => 1
  | attrName _ _ discard => if discard then 1 else 2
  | beforeAttrValue => 2
  | _ => 0

/-- Counts the lexemes without characters that are left before any other character. -/
def rankInside : Context → Nat
  | tagName _ => 3
  | attrName name _ discard => if discard then 0 else if name = .dynamic then 3 else 1
  | beforeAttrName => 2
  | beforeAttrValue => 1
  | _ => 0

/-- A bound on the lexemes without characters that are left before `c` is taken. -/
def rank (c : Char) (here : Context) : Nat :=
  if endsName c then here.rankAtEnd else here.rankInside

theorem rank_lt_four (c : Char) (here : Context) : here.rank c < 4 := by
  unfold rank rankAtEnd rankInside
  split <;> split <;> (try split) <;> (try split) <;> decide

end Context

/-- **A lexeme without characters goes down in rank.** -/
theorem Context.rank_lt_of_width_eq_zero {here : Context} {c : Char} {cs : Text}
    (h : (here.lexeme c cs).width = 0) : (here.lexeme c cs).next.rank c < here.rank c := by
  cases here with
  | pcdata =>
    exfalso; revert h
    simp only [Context.lexeme, Lexeme.inPcdata, Lexeme.atAngle, Lexeme.tagStart]
    repeat' split
    all_goals simp [Lexeme.marking, Lexeme.content, Lexeme.faulty]
  | rcdata element =>
    exfalso; revert h
    simp only [Context.lexeme, Lexeme.inRcdata, Lexeme.tagStart]
    split <;> simp_all [Lexeme.marking, Lexeme.content]
  | comment =>
    exfalso; revert h
    simp only [Context.lexeme, Lexeme.inComment]
    split <;> simp_all [Lexeme.marking, Lexeme.content]
  | declaration =>
    exfalso; revert h
    simp only [Context.lexeme, Lexeme.inDelimited]
    split <;> simp [Lexeme.content]
  | cdata =>
    exfalso; revert h
    simp only [Context.lexeme, Lexeme.inDelimited]
    split <;> simp [Lexeme.content]
  | tagName name =>
    revert h
    simp only [Context.lexeme, Lexeme.inTagNameAt]
    cases name <;> repeat' split
    all_goals
      simp_all [Lexeme.marking, Lexeme.faulty, Context.rank, Context.rankAtEnd,
        Context.rankInside, Text.run, inTagName, startsTagName, Char.isAlphanum]
    split <;> decide
  | beforeAttrName =>
    revert h
    simp only [Context.lexeme, Lexeme.inTag]
    repeat' split
    all_goals
      simp_all [Lexeme.marking, Lexeme.faulty, Context.rank, Context.rankAtEnd,
        Context.rankInside, Text.run, endsName]
  | attrName name afterSeparator discard =>
    revert h
    simp only [Context.lexeme, Lexeme.inAttrNameAt, Lexeme.atAttrNameEnd]
    cases name <;> cases discard <;> repeat' split
    all_goals
      simp_all [Lexeme.marking, Lexeme.faulty, Context.rank, Context.rankAtEnd,
        Context.rankInside]
    all_goals split <;> decide
  | beforeAttrValue =>
    revert h
    simp only [Context.lexeme, Lexeme.beforeValue]
    repeat' split
    all_goals
      simp_all [Lexeme.marking, Context.rank, Context.rankAtEnd, Context.rankInside, Text.run,
        endsName]
    split <;> decide
  | attrValue quotes =>
    revert h
    simp only [Context.lexeme, Lexeme.inValue]
    split
    · split
      · next hc =>
        intro h
        simp [Lexeme.content, Text.run, hc] at h
      · next hc =>
        have hEnd : endsName c = true := by
          simp only [Lexeme.inBareValue, Bool.and_eq_true, Bool.not_eq_true', bne_iff_ne,
            not_and, ne_eq, Decidable.not_not] at hc
          cases hb : isAsciiBlank c
          · simp [endsName, hc hb]
          · simp [endsName, hb]
        simp [Lexeme.marking, Context.rank, hEnd, Context.rankAtEnd]
    · split
      · simp [Lexeme.marking]
      · next hc => simp [Lexeme.content, Text.run, hc]

/-- Only some marks can be without characters. -/
theorem Context.mayBeEmpty_of_width_eq_zero {here : Context} {c : Char} {cs : Text} {mark : Mark}
    (h : (here.lexeme c cs).width = 0) (hm : (here.lexeme c cs).mark = some mark) :
    mark.mayBeEmpty = true := by
  revert h hm
  cases here <;>
    simp only [Context.lexeme, Lexeme.inPcdata, Lexeme.atAngle, Lexeme.tagStart,
      Lexeme.inRcdata, Lexeme.inComment, Lexeme.inDelimited, Lexeme.inTagNameAt, Lexeme.inTag,
      Lexeme.inAttrNameAt, Lexeme.atAttrNameEnd, Lexeme.beforeValue, Lexeme.inValue]
  all_goals
    repeat' split
    all_goals
      intro hw hm
      simp_all [Lexeme.marking, Lexeme.content, Lexeme.faulty]
    all_goals
      subst hm
      simp_all [Text.run, startsTagName, inTagName, Char.isAlphanum, Mark.mayBeEmpty]

/-! ## 6. All lexemes of a text -/

namespace Context

/-- A bound on the lexemes that are left to read. -/
def workLeft (here : Context) : Text → Nat
  | [] => 0
  | c :: cs => 4 * (cs.length + 1) + here.rank c

theorem workLeft_lt_of_length_lt (here after : Context) {s : Text} {c : Char} {cs : Text}
    (h : s.length ≤ cs.length) : after.workLeft s < here.workLeft (c :: cs) := by
  cases s with
  | nil => simp only [workLeft]; omega
  | cons d ds =>
    have := after.rank_lt_four d
    simp only [List.length_cons] at h
    simp only [workLeft]
    omega

/-- Less is left after a lexeme, in whatever context of no higher rank. -/
theorem workLeft_drop_lt {here after : Context} {c : Char} {cs : Text}
    (h : (here.lexeme c cs).width = 0 → after.rank c ≤ (here.lexeme c cs).next.rank c) :
    after.workLeft ((c :: cs).drop (here.lexeme c cs).width) < here.workLeft (c :: cs) := by
  by_cases hw : (here.lexeme c cs).width = 0
  · have := rank_lt_of_width_eq_zero hw
    have := h hw
    simp only [hw, List.drop_zero, workLeft]
    omega
  · refine workLeft_lt_of_length_lt here after ?_
    simp only [List.length_drop, List.length_cons]
    omega

/-- The lexemes of a text from a context on, each with the characters it takes. -/
def lexemes (here : Context) (t : Text) : List (Lexeme × Text) :=
  match t with
  | [] => []
  | c :: cs =>
    let l := here.lexeme c cs
    (l, (c :: cs).take l.width) :: lexemes l.next ((c :: cs).drop l.width)
termination_by here.workLeft t
decreasing_by exact workLeft_drop_lt fun _ => Nat.le_refl _

/-- The context at the end of lexemes. -/
def afterLexemes (here : Context) (lexemes : List (Lexeme × Text)) : Context :=
  match lexemes.getLast? with
  | none => here
  | some (l, _) => l.next

end Context

end TemplateMarkup
