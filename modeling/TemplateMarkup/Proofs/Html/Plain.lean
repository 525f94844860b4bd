/-
# Html without commands

How html that holds no command is normalized, character by character and without a tree.  In a tag,
outside names, `=`, quotes and values, blanks are dropped and so is every `/` that does not stand in
the `/>` of an open tag; one space comes before each attribute.  Everything else is kept.

A `Place` is where a character stands.  `Place.step` says what is written for it and where the next
one stands, and `Place.scan` goes over a text.  Nothing here knows of nodes or of what is wrong with
a text; `Context.scanned_lexeme` compares one lexeme of html with the characters that it takes.
-/
import TemplateMarkup.Proofs.Html.Canonical

namespace TemplateMarkup

/-! ## 1. Places -/

/-- What is known of a tag while its attributes are read. -/
structure TagHead where
  close : Bool
  name : Text

/-- Where a character of html without commands stands. -/
inductive Place
  | content
  /-- In an element whose body is text. -/
  | body (element : Rcdata)
  | comment
  | declaration
  | cdata
  /-- `left + 1` characters before the end of a mark that leads to `after`. -/
  | mark (left : Nat) (after : Place)
  | tagName (tag : TagHead)
  | inTag (tag : TagHead)
  | attrName (tag : TagHead)
  | beforeValue (tag : TagHead)
  | value (quotes : Quotes) (tag : TagHead)

/-- After the `>` of the tag. -/
def TagHead.inside (tag : TagHead) : Place :=
  if tag.close then .content
  else
    match Rcdata.ofName? tag.name with
    | some element => .body element
    | none => .content

/-- Between the attributes of a tag. -/
def TagHead.step (tag : TagHead) (c : Char) (cs : Text) : Text × Place :=
  if isAsciiBlank c then ([], .inTag tag)
  else if c = '>' then ([c], tag.inside)
  else if c = '/' then
    if !tag.close && Text.beginsWith ['>'] cs then ([c], .mark 0 .content) else ([], .inTag tag)
  else ([' ', c], .attrName tag)

/-- In a value: one without quotes ends where the tag goes on. -/
def TagHead.valueStep (tag : TagHead) (quotes : Quotes) (c : Char) (cs : Text) : Text × Place :=
  match quotes.char? with
  | none => if isAsciiBlank c || c == '>' then tag.step c cs else ([c], .value quotes tag)
  | some quote => ([c], if c = quote then .inTag tag else .value quotes tag)

namespace Place

/-- A tag name may begin here.  At the end of the text one might still follow. -/
def mayStartName (cs : Text) : Bool := cs.head?.all startsTagName

/-- After a `<` of content that `cs` follows. -/
def afterAngle (cs : Text) : Place :=
  if Text.beginsWith "!--".toList cs then .mark 2 .comment
  else if Text.beginsWith "![CDATA[".toList cs then .mark 7 .cdata
  else if Text.beginsWith ['!'] cs || Text.beginsWith ['?'] cs then .mark 0 .declaration
  else if mayStartName cs then .tagName ⟨false, []⟩
  else if Text.beginsWith ['/'] cs && mayStartName (cs.drop 1) then .mark 0 (.tagName ⟨true, []⟩)
  else .content

/-- What is written for a character that `cs` follows, and where the next one stands. -/
def step (c : Char) (cs : Text) : Place → Text × Place
  | content => ([c], if c = '<' then afterAngle cs else content)
  | body e => ([c], if Lexeme.closesElement e (c :: cs) then mark 0 (tagName ⟨true, []⟩) else body e)
  | comment => ([c], if Text.beginsWith "-->".toList (c :: cs) then mark 1 content else comment)
  | declaration => ([c], if c = '>' then content else declaration)
  | cdata => ([c], if Text.beginsWith "]]>".toList (c :: cs) then mark 1 content else cdata)
  | mark 0 after => ([c], after)
  | mark (left + 1) after => ([c], mark left after)
  | tagName tag =>
    if inTagName c then ([c], tagName { tag with name := tag.name ++ [c] }) else tag.step c cs
  | inTag tag => tag.step c cs
  | attrName tag =>
    if c = '=' then ([c], beforeValue tag)
    else if endsName c then tag.step c cs
    else ([c], attrName tag)
  | beforeValue tag =>
    if isAsciiBlank c then ([], beforeValue tag)
    else if c = '"' then ([c], value .double tag)
    else if c = '\'' then ([c], value .single tag)
    else tag.valueStep .bare c cs
  | value quotes tag => tag.valueStep quotes c cs

/-- Something has been written before. -/
def lead (written : Text) (r : Text × Place) : Text × Place := (written ++ r.1, r.2)

/-- What is written for a text, and where its end stands. -/
def scan (p : Place) : Text → Text × Place
  | [] => ([], p)
  | c :: cs => lead (p.step c cs).1 ((p.step c cs).2.scan cs)

/-- A tag whose name has begun and that has not ended. -/
def isInTag : Place → Bool
  | tagName tag => !tag.name.isEmpty
  | inTag _ | attrName _ | beforeValue _ | value .. => true
  | mark _ after => after.isInTag
  | content | body _ | comment | declaration | cdata => false

end Place

/-- The html with nothing left in its tags but their parts, one space before each attribute. -/
def trimTags (t : Text) : Text := (Place.content.scan t).1

/-- The html breaks off in a tag. -/
def endsInTag (t : Text) : Bool := (Place.content.scan t).2.isInTag

example : String.ofList (trimTags "<a  b = >x< /a>".toList) = "<a b =>x< /a>" := by decide +kernel

example : String.ofList (trimTags "<p / a='1'b= c / ></p x/>".toList) = "<p a='1' b=c></p x>" := by
  decide +kernel

/-- Neither a blank nor a `/`. -/
def staysInTag (c : Char) : Bool := !(isAsciiBlank c || c == '/')

/-- What is written for a character of a tag is that character, but for blanks and `/`. -/
theorem TagHead.step_filter (tag : TagHead) (c : Char) (cs : Text) :
    (tag.step c cs).1.filter staysInTag = [c].filter staysInTag := by
  unfold TagHead.step
  split
  · next h => simp [staysInTag, h]
  · split
    · rfl
    · split
      · next h =>
        subst h
        split <;> rfl
      · rfl

theorem Place.step_filter (p : Place) (c : Char) (cs : Text) :
    (p.step c cs).1.filter staysInTag = [c].filter staysInTag := by
  have valueStep (quotes : Quotes) (tag : TagHead) :
      (tag.valueStep quotes c cs).1.filter staysInTag = [c].filter staysInTag := by
    unfold TagHead.valueStep
    split
    · split
      · exact tag.step_filter c cs
      · rfl
    · rfl
  cases p with
  | content | body e | comment | declaration | cdata => rfl
  | mark left after => cases left <;> rfl
  | tagName tag =>
    rw [step]
    split
    · rfl
    · exact tag.step_filter c cs
  | inTag tag => exact tag.step_filter c cs
  | attrName tag =>
    rw [step]
    split
    · rfl
    · split
      · exact tag.step_filter c cs
      · rfl
  | beforeValue tag =>
    rw [step]
    split
    · next h => simp [staysInTag, h]
    · split
      · rfl
      · split
        · rfl
        · exact valueStep .bare tag
  | value quotes tag => exact valueStep quotes tag

/-- **Only blanks and `/` are dropped**, and only spaces are put in. -/
theorem trimTags_filter (t : Text) : (trimTags t).filter staysInTag = t.filter staysInTag := by
  have scan : ∀ (t : Text) (p : Place), (p.scan t).1.filter staysInTag = t.filter staysInTag := by
    intro t
    induction t with
    | nil => exact fun _ => rfl
    | cons c cs ih =>
      intro p
      rw [Place.scan, Place.lead, List.filter_append, p.step_filter, ih, ← List.filter_append]
      rfl
  exact scan t .content

/-! ## 2. Stretches -/

namespace Place

@[simp] theorem lead_nil (r : Text × Place) : lead [] r = r := rfl

@[simp] theorem lead_lead (t u : Text) (r : Text × Place) :
    lead t (lead u r) = lead (t ++ u) r := by
  simp [lead]

@[simp] theorem lead_scan_nil (t : Text) (p : Place) : lead t (p.scan []) = (t, p) := by
  simp [lead, scan]

/-- Over a run of characters that leave the place, each is written as `w` says. -/
theorem scan_run {p : Place} {q : Char → Bool} {w : Char → Text}
    (h : ∀ c cs, q c = true → p.step c cs = (w c, p)) (t : Text) :
    p.scan t = lead ((t.take (Text.run q t)).flatMap w) (p.scan (t.drop (Text.run q t))) := by
  induction t with
  | nil => rfl
  | cons c cs ih =>
    rw [Text.run]
    split
    · next hc =>
      rw [scan, h c cs hc]
      dsimp only
      rw [ih]
      simp
    · simp

/-- A run of characters that are kept. -/
theorem scan_kept {p : Place} {q : Char → Bool} (h : ∀ c cs, q c = true → p.step c cs = ([c], p))
    (t : Text) :
    p.scan t = lead (t.take (Text.run q t)) (p.scan (t.drop (Text.run q t))) := by
  have := scan_run h t
  rwa [List.flatMap_singleton'] at this

/-- A run of characters that are dropped. -/
theorem scan_dropped {p : Place} {q : Char → Bool} (h : ∀ c cs, q c = true → p.step c cs = ([], p))
    (t : Text) : p.scan t = p.scan (t.drop (Text.run q t)) := by
  have := scan_run h t
  rwa [show (t.take (Text.run q t)).flatMap (fun _ => ([] : Text)) = [] by simp, lead_nil] at this

/-- Up to the first place where `here` holds, characters are kept. -/
theorem scan_seek {p : Place} {here : Text → Bool}
    (h : ∀ c cs, here (c :: cs) = false → p.step c cs = ([c], p)) : ∀ {t : Text},
    (Text.seek here t = none → p.scan t = (t, p))
      ∧ ∀ n, Text.seek here t = some n → p.scan t = lead (t.take n) (p.scan (t.drop n))
  | [] => ⟨fun _ => rfl, fun n hn => by simp [Text.seek] at hn⟩
  | c :: cs => by
    obtain ⟨ihNone, ihSome⟩ := scan_seek h (t := cs)
    rw [Text.seek]
    split
    · refine ⟨by rintro ⟨⟩, fun n hn => ?_⟩
      cases hn
      rfl
    · next hc =>
      rw [scan, h c cs (by simpa using hc)]
      dsimp only
      refine ⟨fun hn => ?_, fun n hn => ?_⟩
      · rw [ihNone (by simpa using hn)]
        rfl
      · obtain ⟨m, hm, rfl⟩ := Option.map_eq_some_iff.mp hn
        rw [ihSome m hm]
        simp

/-- The rest of a mark is kept. -/
theorem scan_mark (after : Place) : ∀ (u rest : Text) {left : Nat}, u.length = left + 1 →
    (mark left after).scan (u ++ rest) = lead u (after.scan rest)
  | [], _, _, h => by simp at h
  | [c], rest, left, h => by
    obtain rfl : left = 0 := by simpa using h.symm
    rfl
  | c :: d :: u, rest, left, h => by
    obtain ⟨left, rfl⟩ : ∃ k, left = k + 1 := ⟨u.length, by simpa using h.symm⟩
    rw [List.cons_append, scan]
    show lead [c] ((mark left after).scan (d :: u ++ rest)) = _
    rw [scan_mark after (d :: u) rest (by simpa using h), lead_lead]
    rfl

/-- A tag name is kept, and is the name of the tag. -/
theorem scan_tagName : ∀ (t : Text) (tag : TagHead),
    (tagName tag).scan t = lead (t.take (Text.run inTagName t))
      ((tagName { tag with name := tag.name ++ t.take (Text.run inTagName t) }).scan
        (t.drop (Text.run inTagName t)))
  | [], tag => by simp [Text.run, scan, lead]
  | c :: cs, tag => by
    rw [Text.run]
    split
    · next hc =>
      rw [scan, step, if_pos hc]
      dsimp only
      rw [scan_tagName cs]
      simp
    · simp

end Place

/-! ## 3. Lexemes -/

theorem not_endsName_of_startsAttrName {c : Char} (h : startsAttrName c = true) :
    endsName c = false := by
  cases he : endsName c with
  | false => rfl
  | true => rw [not_startsAttrName_of_endsName he] at h; cases h

theorem ne_equals_of_startsAttrName {c : Char} (h : startsAttrName c = true) : c ≠ '=' := by
  rintro rfl
  revert h
  decide

/-- The place of a context, in or around a tag. -/
def Context.place (tag : TagHead) : Context → Place
  | .pcdata => .content
  | .rcdata element => .body element
  | .comment => .comment
  | .declaration => .declaration
  | .cdata => .cdata
  | .tagName _ => .tagName tag
  | .beforeAttrName => .inTag tag
  | .attrName .. => .attrName tag
  | .beforeAttrValue => .beforeValue tag
  | .attrValue quotes => .value quotes tag

/-- What is written for the characters `text` of a mark. -/
def Mark.written (tag : TagHead) (text : Text) : Mark → Text
  | .skip | .tagNameEnd | .attrNameEnd => []
  | .attrNameStart => [' ']
  | .tagEnd _ => if tag.close then ['>'] else text
  | _ => text

/-- The tag around what follows a mark. -/
def Mark.head (tag : TagHead) (text : Text) : Mark → TagHead
  | .tagStart close => ⟨close, []⟩
  | .tagNameChars => { tag with name := tag.name ++ text }
  | _ => tag

/-- The place after a mark that leads to context `next`. -/
def Mark.place (tag : TagHead) (text : Text) (next : Context) (m : Mark) : Place :=
  match m with
  | .tagEnd false => tag.inside
  | m => next.place (m.head tag text)

/-- What is written for the lexeme that `t` begins with. -/
def Lexeme.written (tag : TagHead) (t : Text) (l : Lexeme) : Text :=
  l.mark.elim (t.take l.width) (Mark.written tag (t.take l.width))

/-- The place after the lexeme that `t` begins with. -/
def Lexeme.place (tag : TagHead) (t : Text) (l : Lexeme) : Place :=
  l.mark.elim (l.next.place tag) (Mark.place tag (t.take l.width) l.next)

/-- The characters of the lexeme that `t` begins with are written, and lead, as the lexeme says. -/
def Lexeme.ScannedFrom (l : Lexeme) (p : Place) (tag : TagHead) (t : Text) : Prop :=
  p.scan t = Place.lead (l.written tag t) ((l.place tag t).scan (t.drop l.width))

namespace Lexeme

open Place

variable {c : Char} {cs : Text} (tag : TagHead)

/-- **At a `<` of content.** -/
theorem scanned_atAngle (hf : (atAngle cs).fault = none) :
    (atAngle cs).ScannedFrom .content tag ('<' :: cs) := by
  have hstep {p : Place} (h : afterAngle cs = p) :
      Place.content.scan ('<' :: cs) = lead ['<'] (p.scan cs) := by
    rw [scan, step, if_pos rfl, h]
  have hmark {u : Text} {left : Nat} {p : Place} (hu : Text.beginsWith u cs = true)
      (hlen : u.length = left + 1) (h : afterAngle cs = .mark left p) :
      Place.content.scan ('<' :: cs) = lead (('<' :: cs).take (left + 2))
        (p.scan (('<' :: cs).drop (left + 2))) := by
    obtain ⟨rest, rfl⟩ := Text.exists_of_beginsWith hu
    rw [hstep h, scan_mark _ _ _ hlen, lead_lead, List.take_succ_cons, List.drop_succ_cons, ← hlen,
      List.take_left, List.drop_left]
    rfl
  revert hf
  unfold Lexeme.atAngle
  split
  · next h =>
    intro _
    have ha : afterAngle cs = .mark 2 .comment := by rw [afterAngle, if_pos h]
    exact hmark h rfl ha
  · next h1 =>
    split
    · next h =>
      intro _
      have ha : afterAngle cs = .mark 7 .cdata := by rw [afterAngle, if_neg h1, if_pos h]
      exact hmark h rfl ha
    · next h2 =>
      split
      · next h =>
        intro _
        have ha : afterAngle cs = .mark 0 .declaration := by
          rw [afterAngle, if_neg h1, if_neg h2, if_pos h]
        rcases (Bool.or_eq_true _ _).mp h with h | h
        · exact hmark h rfl ha
        · exact hmark h rfl ha
      · next h3 =>
        have hopen (h : mayStartName cs = true) : afterAngle cs = .tagName ⟨false, []⟩ := by
          rw [afterAngle, if_neg h1, if_neg h2, if_neg h3, if_pos h]
        have hclose (h : mayStartName cs = false) (hs : Text.beginsWith ['/'] cs = true)
            (h' : mayStartName (cs.drop 1) = true) :
            afterAngle cs = .mark 0 (.tagName ⟨true, []⟩) := by
          rw [afterAngle, if_neg h1, if_neg h2, if_neg h3, if_neg (by simp [h]), hs, h']
          rfl
        split
        · intro _
          exact hstep (hopen rfl)
        · intro _
          exact hmark (u := ['/']) rfl rfl (hclose rfl rfl rfl)
        · next c cs =>
          split
          · next h =>
            intro _
            exact hmark (u := ['/']) rfl rfl (hclose rfl rfl (by simpa [mayStartName] using h))
          · exact nofun
        · next c cs _ _ =>
          split
          · next h =>
            intro _
            exact hstep (hopen (by simpa [mayStartName] using h))
          · exact nofun

theorem scanned_inPcdata (hf : (inPcdata c cs).fault = none) :
    (inPcdata c cs).ScannedFrom .content tag (c :: cs) := by
  unfold inPcdata at hf ⊢
  split
  · next hc =>
    rw [if_pos hc] at hf
    rw [hc]
    exact scanned_atAngle tag hf
  · next hc =>
    have := scan_kept (p := .content) (q := (· != '<'))
      (fun c cs hc => by rw [step, if_neg (by simpa using hc)]) (c :: cs)
    rwa [Text.run_cons_of (by simpa using hc)] at this

/-- A body, a comment and cdata are kept up to the mark that ends them. -/
theorem scanned_seek {p : Place} (here : Text → Bool) (next : Context) (t : Text)
    (h : ∀ c cs, here (c :: cs) = false → p.step c cs = ([c], p)) (hp : next.place tag = p) :
    (Text.seek here t = none → (content next t.length).ScannedFrom p tag t)
      ∧ ∀ n, Text.seek here t = some n → (content next n).ScannedFrom p tag t := by
  obtain ⟨hnone, hsome⟩ := scan_seek h (t := t)
  refine ⟨fun hn => ?_, fun n hn => ?_⟩
  · show p.scan t = lead (t.take t.length) ((next.place tag).scan (t.drop t.length))
    rw [hnone hn, List.take_length, List.drop_length, hp, lead_scan_nil]
  · show p.scan t = lead (t.take n) ((next.place tag).scan (t.drop n))
    rw [hsome n hn, hp]

theorem scanned_inRcdata (e : Rcdata) :
    (inRcdata e (c :: cs)).ScannedFrom (.body e) tag (c :: cs) := by
  obtain ⟨hnone, hsome⟩ := scanned_seek tag (p := .body e) (closesElement e)
    (.rcdata e) (c :: cs) (fun c cs hc => by rw [step, hc]; rfl) rfl
  unfold inRcdata
  split
  · next h => exact hnone h
  · next h =>
    have hc : closesElement e (c :: cs) = true := (Text.of_seek_eq_some h).1
    obtain ⟨u, hu⟩ : ∃ u, c :: cs = '<' :: '/' :: u := by
      unfold closesElement at hc
      cases ha : Text.after? ['<', '/'] (c :: cs) with
      | none => rw [ha] at hc; cases hc
      | some u => exact ⟨u, Text.eq_append_of_after? ha⟩
    obtain ⟨rfl, rfl⟩ := List.cons.inj hu
    show (Place.body e).scan _ = lead ['<', '/'] ((Place.tagName ⟨true, []⟩).scan u)
    rw [scan, step, if_pos hc]
    rfl
  · next n _ h => exact hsome n h

theorem scanned_inComment : (inComment (c :: cs)).ScannedFrom .comment tag (c :: cs) := by
  obtain ⟨hnone, hsome⟩ := scanned_seek tag (p := .comment)
    (Text.beginsWith "-->".toList) .comment (c :: cs) (fun c cs hc => by rw [step, hc]; rfl) rfl
  unfold inComment
  split
  · next h => exact hnone h
  · next h =>
    have hc := (Text.of_seek_eq_some h).1
    obtain ⟨u, hu⟩ := Text.exists_of_beginsWith hc
    obtain ⟨rfl, rfl⟩ := List.cons.inj (hu : c :: cs = '-' :: '-' :: '>' :: u)
    show Place.comment.scan _ = lead ['-', '-', '>'] (Place.content.scan u)
    rw [scan, step, if_pos (by exact hc)]
    exact congrArg _ (scan_mark .content ['-', '>'] u rfl)
  · next n _ h => exact hsome n h

/-- Text that ends with a mark of its own is kept, and so is the mark. -/
theorem scanned_inDelimited {p : Place} {here : Context} {stop : Text} {t : Text}
    (hp : here.place tag = p)
    (h : ∀ c cs, Text.beginsWith stop (c :: cs) = false → p.step c cs = ([c], p))
    (hstop : ∀ rest, p.scan (stop ++ rest) = lead stop (Place.content.scan rest)) :
    (inDelimited here stop t).ScannedFrom p tag t := by
  obtain ⟨hnone, hsome⟩ := scan_seek h (t := t)
  unfold inDelimited
  split
  · next hn =>
    show p.scan t = lead (t.take t.length) ((here.place tag).scan (t.drop t.length))
    rw [hnone hn, List.take_length, List.drop_length, hp, lead_scan_nil]
  · next n hn =>
    show p.scan t = lead (t.take (n + stop.length)) (Place.content.scan (t.drop (n + stop.length)))
    obtain ⟨rest, hrest⟩ := Text.exists_of_beginsWith (Text.of_seek_eq_some hn).1
    rw [hsome n hn, List.take_add, ← List.drop_drop, hrest, hstop, List.take_left, List.drop_left,
      lead_lead]

theorem scanned_inTagNameAt {part : NamePart} (hf : (inTagNameAt part c cs).fault = none) :
    (inTagNameAt part c cs).ScannedFrom (.tagName tag) tag (c :: cs) := by
  have chars : (marking .tagNameChars (.tagName .static) (Text.run inTagName (c :: cs))).ScannedFrom
      (.tagName tag) tag (c :: cs) := scan_tagName (c :: cs) tag
  have ends (h : endsName c = true) :
      (marking .tagNameEnd .beforeAttrName 0).ScannedFrom (.tagName tag) tag (c :: cs) := by
    show (Place.tagName tag).scan (c :: cs) = lead [] ((Place.inTag tag).scan (c :: cs))
    rw [lead_nil, scan, scan, step, if_neg (by simp [not_inTagName_of_endsName h])]
    rfl
  revert hf
  cases part with
  | empty =>
    unfold inTagNameAt
    dsimp only
    split
    · exact fun _ => chars
    · exact nofun
  | static =>
    unfold inTagNameAt
    dsimp only
    split
    · next h => exact fun _ => ends h
    · split
      · exact fun _ => chars
      · exact nofun
  | dynamic =>
    unfold inTagNameAt
    dsimp only
    split
    · next h => exact fun _ => ends h
    · exact nofun

theorem scanned_inTag (hf : (inTag c cs).fault = none) :
    (inTag c cs).ScannedFrom (.inTag tag) tag (c :: cs) := by
  revert hf
  unfold inTag
  split
  · next h =>
    intro _
    exact scan_dropped (p := .inTag tag) (q := isAsciiBlank)
      (fun c cs hc => by rw [step, TagHead.step, if_pos hc]) (c :: cs)
  · next hb =>
    split
    · next hc =>
      intro _
      subst hc
      show (Place.inTag tag).scan _ = lead (if tag.close then ['>'] else ['>']) (tag.inside.scan cs)
      rw [scan, step, TagHead.step, if_neg hb, if_pos rfl, ite_self]
    · next hg =>
      split
      · next hc =>
        subst hc
        split
        · next hs =>
          intro _
          obtain ⟨rest, rfl⟩ := Text.exists_of_beginsWith hs
          show (Place.inTag tag).scan _
            = lead (if tag.close then ['>'] else ['/', '>']) (Place.content.scan rest)
          rw [scan, step, TagHead.step, if_neg hb, if_neg hg, if_pos rfl, hs]
          cases hclose : tag.close with
          | false =>
            exact congrArg (lead ['/']) (scan_mark .content ['>'] rest rfl)
          | true =>
            show (Place.inTag tag).scan ('>' :: rest) = lead ['>'] _
            rw [scan, step, TagHead.step, if_neg (by decide), if_pos rfl, TagHead.inside, hclose]
            rfl
        · next hs =>
          intro _
          show (Place.inTag tag).scan _ = lead [] ((Place.inTag tag).scan cs)
          rw [scan, step, TagHead.step, if_neg hb, if_neg hg, if_pos rfl, if_neg (by simp [hs])]
      · next hc =>
        split
        · next hs =>
          intro _
          show (Place.inTag tag).scan _ = lead [' '] ((Place.attrName tag).scan (c :: cs))
          rw [scan, scan, step, step, TagHead.step, if_neg hb, if_neg hg, if_neg hc,
            if_neg (ne_equals_of_startsAttrName hs),
            if_neg (by simp [not_endsName_of_startsAttrName hs])]
          rfl
        · exact nofun

theorem scanned_atAttrNameEnd {t : Text} (ht : t = c :: cs) (h : (endsName c || c == '=') = true) :
    (atAttrNameEnd c).ScannedFrom (.attrName tag) tag t := by
  subst ht
  unfold atAttrNameEnd
  split
  · next hc =>
    subst hc
    rfl
  · next hc =>
    have he : endsName c = true := by simpa [hc] using h
    have hstep : (Place.attrName tag).step c cs = tag.step c cs := by
      rw [step, if_neg hc, if_pos he]
    show (Place.attrName tag).scan _ = lead [] ((Place.inTag tag).scan (c :: cs))
    rw [scan, hstep]
    rfl

theorem scanned_inAttrNameAt {part : NamePart} {sep : Bool}
    (hf : (inAttrNameAt part sep false c).fault = none) :
    (inAttrNameAt part sep false c).ScannedFrom (.attrName tag) tag (c :: cs) := by
  have atEnd := @scanned_atAttrNameEnd c cs tag _ rfl
  have char {next : Context} (hnext : next.place tag = .attrName tag)
      (hc : ¬ (endsName c || c == '=') = true) :
      (marking .attrNameChar next 1).ScannedFrom (.attrName tag) tag (c :: cs) := by
    obtain ⟨he, hq⟩ : endsName c = false ∧ c ≠ '=' := by simpa using hc
    show (Place.attrName tag).scan _ = lead [c] ((next.place tag).scan cs)
    rw [scan, step, if_neg hq, if_neg (by simp [he]), hnext]
  revert hf
  cases part with
  | dynamic =>
    unfold inAttrNameAt
    dsimp only
    rw [if_neg (by decide)]
    split
    · next h => exact fun _ => atEnd h
    · exact nofun
  | empty =>
    unfold inAttrNameAt
    dsimp only
    rw [if_neg (by decide)]
    split
    · next h =>
      split
      · exact nofun
      · exact fun _ => atEnd h
    · next h =>
      split
      · exact fun _ => char rfl h
      · exact nofun
  | static =>
    unfold inAttrNameAt
    dsimp only
    rw [if_neg (by decide)]
    split
    · next h =>
      split
      · exact nofun
      · exact fun _ => atEnd h
    · next h =>
      split
      · exact fun _ => char rfl h
      · split
        · exact fun _ => char rfl h
        · exact nofun

theorem scanned_beforeValue : (beforeValue c cs).ScannedFrom (.beforeValue tag) tag (c :: cs) := by
  unfold beforeValue
  split
  · next h =>
    exact scan_dropped (p := .beforeValue tag) (q := isAsciiBlank)
      (fun c cs hc => by rw [step, if_pos hc]) (c :: cs)
  · next hb =>
    split
    · next hc =>
      subst hc
      rfl
    · next hd =>
      split
      · next hc =>
        subst hc
        rfl
      · next hs =>
        show (Place.beforeValue tag).scan _ = lead [] ((Place.value .bare tag).scan (c :: cs))
        rw [scan, scan, step, if_neg hb, if_neg hd, if_neg hs]
        rfl

theorem scanned_inValue {quotes : Quotes} :
    (inValue quotes c cs).ScannedFrom (.value quotes tag) tag (c :: cs) := by
  have quoted {quote : Char} (hq : quotes.char? = some quote) :
      (if c = quote then marking .valueEnd .beforeAttrName 1
        else content (.attrValue quotes) (Text.run (· != quote) (c :: cs))).ScannedFrom
        (.value quotes tag) tag (c :: cs) := by
    split
    · next hc =>
      show (Place.value quotes tag).scan _ = lead [c] ((Place.inTag tag).scan cs)
      rw [scan, step, TagHead.valueStep, hq]
      dsimp only
      rw [if_pos hc]
    · exact scan_kept (p := .value quotes tag) (q := (· != quote))
        (fun c cs hc => by
          rw [step, TagHead.valueStep, hq]
          dsimp only
          rw [if_neg (by simpa using hc)]) (c :: cs)
  cases quotes with
  | bare =>
    show (if inBareValue c then content (.attrValue .bare) (Text.run inBareValue (c :: cs))
      else marking .valueEnd .beforeAttrName 0).ScannedFrom _ tag (c :: cs)
    split
    · exact scan_kept (p := .value .bare tag) (q := inBareValue)
        (fun c cs hc => by
          have : (isAsciiBlank c || c == '>') = false := by simpa [inBareValue] using hc
          rw [step, TagHead.valueStep, Quotes.char?]
          dsimp only
          rw [if_neg (by simp [this])]) (c :: cs)
    · next hc =>
      show (Place.value .bare tag).scan _ = lead [] ((Place.inTag tag).scan (c :: cs))
      have : (isAsciiBlank c || c == '>') = true := by
        simp only [inBareValue, Bool.not_eq_true, Bool.and_eq_false_iff] at hc
        rcases hc with hc | hc
        · simp [show isAsciiBlank c = true by simpa using hc]
        · simp [show (c == '>') = true by simpa using hc]
      have hstep : (Place.value .bare tag).step c cs = tag.step c cs := by
        show (if isAsciiBlank c || c == '>' then tag.step c cs else ([c], .value .bare tag)) = _
        rw [if_pos this]
      rw [scan, hstep]
      rfl
  | single => exact quoted rfl
  | double => exact quoted rfl

end Lexeme

/-- **A lexeme without a fault takes what the scan takes.** -/
theorem Context.scanned_lexeme {here : Context} (c : Char) (cs : Text) (tag : TagHead)
    (hd : here.discards = false) (hf : (here.lexeme c cs).fault = none) :
    (here.lexeme c cs).ScannedFrom (here.place tag) tag (c :: cs) := by
  cases here with
  | pcdata => exact Lexeme.scanned_inPcdata tag hf
  | rcdata e => exact Lexeme.scanned_inRcdata tag e
  | comment => exact Lexeme.scanned_inComment tag
  | declaration =>
    refine Lexeme.scanned_inDelimited tag rfl (fun c cs hc => ?_) fun rest => ?_
    · have : c ≠ '>' := by
        rintro rfl
        cases hc
      rw [Context.place, Place.step, if_neg this]
    · rfl
  | cdata =>
    refine Lexeme.scanned_inDelimited tag rfl (fun c cs hc => ?_) fun rest => ?_
    · rw [Context.place, Place.step, hc]
      rfl
    · exact congrArg (Place.lead [']']) (Place.scan_mark .content [']', '>'] rest rfl)
  | tagName part => exact Lexeme.scanned_inTagNameAt tag hf
  | beforeAttrName => exact Lexeme.scanned_inTag tag hf
  | attrName part sep drop =>
    obtain rfl : drop = false := hd
    exact Lexeme.scanned_inAttrNameAt tag hf
  | beforeAttrValue => exact Lexeme.scanned_beforeValue tag
  | attrValue quotes => exact Lexeme.scanned_inValue tag

end TemplateMarkup
