import Mathlib.Data.List.Forall2
import ScriptBytecode.Json.Reader
import ScriptBytecode.Proofs.NumberText

/-!
# Texts of JSON values

`Spells brackets json text` says that a text spells a JSON value, with any blanks between its tokens and with no more
than a given number of brackets open at once. Strings may be spelled with escapes, and numbers in every way that is read
as the number. The reader takes such a text back to the value (`reads_readValue`), and so do the readers for lists and
records whose fields are known in advance. Where the value is skipped, it reads on behind it (`readsAs_readValue`).

The grammar of the parts between brackets (`Listed`) has the grammar of one part as a parameter; this is how the depth of
a value comes down to a recursion on the number of brackets.
-/

namespace ScriptBytecode.Json

/-! ## Blanks -/

def AllBlank (text : List Char) : Prop :=
  ∀ c ∈ text, isBlank c = true

theorem allBlank_nil : AllBlank [] :=
  fun _ hmem => nomatch hmem

theorem skipBlanks_append {before : List Char} (h : AllBlank before) (text : List Char) :
    skipBlanks (before ++ text) = skipBlanks text :=
  List.dropWhile_append_of_pos h

theorem skipBlanks_cons {c : Char} (h : isBlank c = false) (text : List Char) : skipBlanks (c :: text) = c :: text := by
  simp [skipBlanks, h]

theorem skipBlanks_append_cons {before : List Char} {c : Char} (hbefore : AllBlank before) (hc : isBlank c = false)
    (text : List Char) : skipBlanks (before ++ c :: text) = c :: text :=
  (skipBlanks_append hbefore (c :: text)).trans (skipBlanks_cons hc text)

/-- Blanks, and a comma or a closing bracket behind them. -/
theorem delimited_append {behind rest : List Char} {c : Char} (h : AllBlank behind)
    (hc : c = ',' ∨ c = ']' ∨ c = '\x7d') : Delimited (behind ++ c :: rest) := by
  cases behind with
  | nil =>
      intro d hd
      obtain rfl := Option.some.inj hd
      exact Or.inr hc
  | cons first behind =>
      intro d hd
      obtain rfl := Option.some.inj hd
      exact Or.inl (h _ List.mem_cons_self)

/-! ## Strings -/

/-- A character of a string: it stands for itself, or it is spelled behind a backslash, with a letter, with four
hexadecimal digits, or with two times four of them that are a pair of surrogates. -/
inductive SpellsChar : Char → List Char → Prop
  | plain {c : Char} (visible : ¬ c < ' ') (noQuote : c ≠ '"') (noBackslash : c ≠ '\\') : SpellsChar c [c]
  | letter {letter c : Char} (escaped : escapedChar? letter = some c) : SpellsChar c ['\\', letter]
  | unit {digits : List Char} {unit : Nat} (value : hexUnit? digits = some unit)
      (noLeading : isLeadingSurrogate unit = false) (noTrailing : isTrailingSurrogate unit = false) :
      SpellsChar (Char.ofNat unit) ('\\' :: 'u' :: digits)
  | pair {digits others : List Char} {leading trailing : Nat} (first : hexUnit? digits = some leading)
      (isLeading : isLeadingSurrogate leading = true) (second : hexUnit? others = some trailing)
      (isTrailing : isTrailingSurrogate trailing = true) :
      SpellsChar (pairedChar leading trailing) ('\\' :: 'u' :: (digits ++ '\\' :: 'u' :: others))

inductive SpellsChars : List Char → List Char → Prop
  | nil : SpellsChars [] []
  | cons {c : Char} {chars text others : List Char} (first : SpellsChar c text) (rest : SpellsChars chars others) :
      SpellsChars (c :: chars) (text ++ others)

/-- The characters of a string between quotes. -/
def SpellsString (value : String) (text : List Char) : Prop :=
  ∃ body, SpellsChars value.toList body ∧ text = '"' :: (body ++ ['"'])

/-- Hexadecimal digits take one byte. -/
theorem utf8Size_of_hexDigit? {c : Char} {digit : Nat} (h : hexDigit? c = some digit) : c.utf8Size = 1 := by
  have hle : c ≤ 'f' := by
    unfold hexDigit? at h
    split at h
    · rename_i hdigit
      exact Char.le_trans hdigit.2 (by decide)
    · split at h
      · rename_i hlower
        exact hlower.2
      · split at h
        · rename_i hupper
          exact Char.le_trans hupper.2 (by decide)
        · exact nomatch h
  have hsmall : c.val ≤ 0x7f := UInt32.le_trans hle (by decide)
  simp [Char.utf8Size, hsmall]

theorem hexDigit?_of_hexValue?_cons {value unit : Nat} {c : Char} {digits : List Char}
    (h : hexValue? value (c :: digits) = some unit) :
    ∃ digit, hexDigit? c = some digit ∧ hexValue? (value * 16 + digit) digits = some unit := by
  unfold hexValue? at h
  cases hdigit : hexDigit? c with
  | none => simp [hdigit] at h
  | some digit =>
      simp only [hdigit] at h
      exact ⟨digit, rfl, h⟩

/-- The digits of an escape are four characters of one byte each. -/
theorem exists_of_hexUnit? {digits : List Char} {unit : Nat} (h : hexUnit? digits = some unit) :
    ∃ a b c d, digits = [a, b, c, d] ∧ a.utf8Size = 1 ∧ b.utf8Size = 1 ∧ c.utf8Size = 1 ∧ d.utf8Size = 1 := by
  have hlength : digits.length = 4 := by
    unfold hexUnit? at h
    split at h
    · assumption
    · exact nomatch h
  match digits, hlength with
  | [a, b, c, d], _ =>
      have hvalue : hexValue? 0 [a, b, c, d] = some unit := by simpa [hexUnit?] using h
      obtain ⟨_, ha, hvalue⟩ := hexDigit?_of_hexValue?_cons hvalue
      obtain ⟨_, hb, hvalue⟩ := hexDigit?_of_hexValue?_cons hvalue
      obtain ⟨_, hc, hvalue⟩ := hexDigit?_of_hexValue?_cons hvalue
      obtain ⟨_, hd, -⟩ := hexDigit?_of_hexValue?_cons hvalue
      exact ⟨a, b, c, d, rfl, utf8Size_of_hexDigit? ha, utf8Size_of_hexDigit? hb, utf8Size_of_hexDigit? hc,
        utf8Size_of_hexDigit? hd⟩

/-- The four digits of an escape take four bytes, so the reader looks at them when it has all of them. -/
theorem readStringFrom_hex {digits : List Char} {unit : Nat} (hunit : hexUnit? digits = some unit) (mode : Mode)
    (rest : List Char) :
    readStringFrom mode (.hex none []) (digits ++ rest) =
      if mode = .kept ∧ isTrailingSurrogate unit then .error .malformed
      else if mode = .kept ∧ isLeadingSurrogate unit then readStringFrom mode (.pairBackslash unit) rest
      else prependChar (Char.ofNat unit) (readStringFrom mode .plain rest) := by
  obtain ⟨a, b, c, d, rfl, ha, hb, hc, hd⟩ := exists_of_hexUnit? hunit
  simp [readStringFrom, byteCount, ha, hb, hc, hd, hunit]

/-- The digits behind a leading surrogate. -/
theorem readStringFrom_hex_paired {digits : List Char} {unit leading : Nat} (hunit : hexUnit? digits = some unit)
    (htrailing : isTrailingSurrogate unit = true) (mode : Mode) (rest : List Char) :
    readStringFrom mode (.hex (some leading) []) (digits ++ rest) =
      prependChar (pairedChar leading unit) (readStringFrom mode .plain rest) := by
  obtain ⟨a, b, c, d, rfl, ha, hb, hc, hd⟩ := exists_of_hexUnit? hunit
  simp [readStringFrom, byteCount, ha, hb, hc, hd, hunit, htrailing]

/-- What reading in a mode makes of a value: the value itself if it is kept, and anything if it is skipped. -/
def Mode.Gives {α : Type} (mode : Mode) (value result : α) : Prop :=
  mode = .kept → result = value

theorem Mode.gives_refl {α : Type} (mode : Mode) (value : α) : mode.Gives value value :=
  fun _ => rfl

/-- A character is read from its spelling. -/
theorem SpellsChar.readStringFrom_append {c : Char} {text : List Char} (h : SpellsChar c text) {mode : Mode}
    {chars result rest behind : List Char} (hgives : mode.Gives chars result)
    (hrest : readStringFrom mode .plain rest = .ok (result, behind)) :
    ∃ more, mode.Gives (c :: chars) more ∧ readStringFrom mode .plain (text ++ rest) = .ok (more, behind) := by
  have hcons : mode.Gives (c :: chars) (c :: result) := fun hkept => congrArg (c :: ·) (hgives hkept)
  cases h with
  | plain visible noQuote noBackslash =>
      exact ⟨c :: result, hcons, by simp [readStringFrom, visible, noQuote, noBackslash, hrest, prependChar]⟩
  | @letter letter c escaped =>
      have hnot : letter ≠ 'u' := by
        rintro rfl
        exact nomatch escaped
      exact ⟨c :: result, hcons, by simp [readStringFrom, hnot, escaped, hrest, prependChar]⟩
  | @unit digits unit value noLeading noTrailing =>
      have hread := readStringFrom_hex value mode rest
      simp only [noTrailing, noLeading, Bool.false_eq_true, and_false, if_false, hrest, prependChar] at hread
      exact ⟨_, hcons, by simpa [readStringFrom] using hread⟩
  | @pair digits others leading trailing first isLeading second isTrailing =>
      have hnoTrailing : isTrailingSurrogate leading = false := by
        simp only [isLeadingSurrogate, decide_eq_true_eq] at isLeading
        simp only [isTrailingSurrogate, decide_eq_false_iff_not]
        omega
      have hfirst := readStringFrom_hex first mode ('\\' :: 'u' :: (others ++ rest))
      cases mode with
      | kept =>
          have hsecond := @readStringFrom_hex_paired _ _ leading second isTrailing .kept rest
          simp only [hrest, prependChar] at hsecond
          simp only [hnoTrailing, isLeading, Bool.false_eq_true, and_false, and_self, if_false, if_true] at hfirst
          refine ⟨_, hcons, ?_⟩
          simpa [readStringFrom, hsecond] using hfirst
      | skipped =>
          -- A skipped string takes the two units as two characters.
          have hsecond := readStringFrom_hex second .skipped rest
          have hmode : ¬ Mode.skipped = .kept := by decide
          simp only [hmode, false_and, if_false, hrest, prependChar] at hfirst hsecond
          refine ⟨Char.ofNat leading :: Char.ofNat trailing :: result, fun hkept => absurd hkept hmode, ?_⟩
          simpa [readStringFrom, hsecond, prependChar] using hfirst

theorem SpellsChars.readStringBody_append {chars body : List Char} (h : SpellsChars chars body) (mode : Mode)
    (rest : List Char) :
    ∃ result, mode.Gives chars result ∧ readStringBody mode (body ++ '"' :: rest) = .ok (result, rest) := by
  unfold readStringBody
  induction h with
  | nil => exact ⟨[], mode.gives_refl [], by simp [readStringFrom]⟩
  | cons first _ ih =>
      obtain ⟨result, hgives, hread⟩ := ih
      rw [List.append_assoc]
      exact first.readStringFrom_append hgives hread

/-! ## The grammar -/

/-- Parts of a text with commas between them, from the first part on, up to and with a closing bracket. -/
inductive Listed {α : Type} (spells : α → List Char → Prop) (close : Char) : List α → List Char → Prop
  | last {value : α} {before text behind : List Char} (blankBefore : AllBlank before) (spelled : spells value text)
      (blankBehind : AllBlank behind) : Listed spells close [value] (before ++ (text ++ (behind ++ [close])))
  | more {value : α} {values : List α} {before text behind others : List Char} (blankBefore : AllBlank before)
      (spelled : spells value text) (blankBehind : AllBlank behind) (rest : Listed spells close values others) :
      Listed spells close (value :: values) (before ++ (text ++ (behind ++ ',' :: others)))

/-- What stands behind an opening bracket, up to and with the closing one. -/
inductive Bracketed {α : Type} (spells : α → List Char → Prop) (close : Char) : List α → List Char → Prop
  | empty {blanks : List Char} (blank : AllBlank blanks) : Bracketed spells close [] (blanks ++ [close])
  | listed {values : List α} {text : List Char} (parts : Listed spells close values text) :
      Bracketed spells close values text

/-- A member of an object. -/
inductive SpellsMember (spells : Json → List Char → Prop) : String × Json → List Char → Prop
  | intro {key : String} {value : Json} {keyText behind before text : List Char} (spelledKey : SpellsString key keyText)
      (blankBehind : AllBlank behind) (blankBefore : AllBlank before) (spelled : spells value text) :
      SpellsMember spells (key, value) (keyText ++ (behind ++ ':' :: (before ++ text)))

/-- A value without brackets. -/
inductive SpellsLeaf : Json → List Char → Prop
  | null : SpellsLeaf .null "null".toList
  | bool {value : Bool} : SpellsLeaf (.bool value) (writeBool value)
  | number {value : JsonNumber} {text : List Char} (reads : ReadsNumber value text) : SpellsLeaf (.number value) text
  | string {value : String} {text : List Char} (spelled : SpellsString value text) : SpellsLeaf (.string value) text

/-- An array or an object, with a given grammar for what is inside. -/
inductive SpellsAround (spells : Json → List Char → Prop) : Json → List Char → Prop
  | array {items : List Json} {text : List Char} (inside : Bracketed spells ']' items text) :
      SpellsAround spells (.array items) ('[' :: text)
  | object {members : List (String × Json)} {text : List Char}
      (inside : Bracketed (SpellsMember spells) '\x7d' members text) :
      SpellsAround spells (.object members) ('\x7b' :: text)

/-- A text spells a value with no more than a number of brackets open at once. -/
def Spells : Nat → Json → List Char → Prop
  | 0, json, text => SpellsLeaf json text
  | brackets + 1, json, text => SpellsLeaf json text ∨ SpellsAround (Spells brackets) json text

theorem Spells.of_leaf {brackets : Nat} {json : Json} {text : List Char} (h : SpellsLeaf json text) :
    Spells brackets json text := by
  cases brackets with
  | zero => exact h
  | succ brackets => exact Or.inl h

/-- A text begins with a character that is no blank and closes no bracket. -/
def Begins (text : List Char) : Prop :=
  ∃ c more, text = c :: more ∧ isBlank c = false ∧ c ≠ ']' ∧ c ≠ '\x7d'

theorem SpellsString.begins {value : String} {text : List Char} (h : SpellsString value text) : Begins text := by
  obtain ⟨body, -, rfl⟩ := h
  exact ⟨'"', body ++ ['"'], rfl, by decide⟩

theorem ReadsNumber.begins {value : JsonNumber} {text : List Char} (h : ReadsNumber value text) : Begins text := by
  obtain ⟨negative, digits, rfl, ⟨c, more, rfl, hdigit⟩, -⟩ := h
  cases negative with
  | true => exact ⟨'-', c :: more, rfl, by decide⟩
  | false =>
      refine ⟨c, more, rfl, ?_, ?_, ?_⟩
      · cases hblank : isBlank c with
        | false => rfl
        | true =>
            simp only [isBlank, Bool.or_eq_true, beq_iff_eq] at hblank
            rcases hblank with ((rfl | rfl) | rfl) | rfl <;> exact absurd hdigit (by decide)
      · rintro rfl
        exact absurd hdigit (by decide)
      · rintro rfl
        exact absurd hdigit (by decide)

theorem SpellsLeaf.begins {json : Json} {text : List Char} (h : SpellsLeaf json text) : Begins text := by
  cases h with
  | null => exact ⟨'n', _, rfl, by decide⟩
  | @bool value =>
      cases value with
      | true => exact ⟨'t', _, rfl, by decide⟩
      | false => exact ⟨'f', _, rfl, by decide⟩
  | number reads => exact reads.begins
  | string spelled => exact spelled.begins

theorem Spells.begins {brackets : Nat} {json : Json} {text : List Char} (h : Spells brackets json text) :
    Begins text := by
  cases brackets with
  | zero => exact SpellsLeaf.begins h
  | succ brackets =>
      rcases h with hleaf | haround
      · exact hleaf.begins
      · cases haround with
        | array inside => exact ⟨'[', _, rfl, by decide⟩
        | object inside => exact ⟨'\x7b', _, rfl, by decide⟩

theorem SpellsMember.begins {spells : Json → List Char → Prop} {member : String × Json} {text : List Char}
    (h : SpellsMember spells member text) : Begins text := by
  cases h with
  | intro spelledKey _ _ _ =>
      obtain ⟨c, more, rfl, hc⟩ := spelledKey.begins
      exact ⟨c, _, rfl, hc⟩

/-! ## Reading what stands between brackets -/

/-- A reader takes a text to a value that fits, behind any blanks and before any delimiter. -/
def ReadsAs {α : Type} (reader : Reader α) (fits : α → Prop) (text : List Char) : Prop :=
  ∀ before rest, AllBlank before → Delimited rest →
    ∃ value, fits value ∧ reader (before ++ (text ++ rest)) = .ok (value, rest)

/-- A reader takes a text back to a value. -/
def ReadsBack {α : Type} (reader : Reader α) (value : α) (text : List Char) : Prop :=
  ∀ before rest, AllBlank before → Delimited rest → reader (before ++ (text ++ rest)) = .ok (value, rest)

theorem readsBack_iff {α : Type} {reader : Reader α} {value : α} {text : List Char} :
    ReadsBack reader value text ↔ ReadsAs reader (value = ·) text := by
  constructor
  · intro h before rest hbefore hrest
    exact ⟨value, rfl, h before rest hbefore hrest⟩
  · intro h before rest hbefore hrest
    obtain ⟨_, rfl, hread⟩ := h before rest hbefore hrest
    exact hread

theorem ReadsAs.mono {α : Type} {reader : Reader α} {fits suits : α → Prop} {text : List Char}
    (h : ReadsAs reader fits text) (himp : ∀ value, fits value → suits value) : ReadsAs reader suits text := by
  intro before rest hbefore hrest
  obtain ⟨value, hfits, hread⟩ := h before rest hbefore hrest
  exact ⟨value, himp value hfits, hread⟩

section Listed

variable {α β : Type} {spells : α → List Char → Prop} {close : Char} {values : List α} {text : List Char}

theorem Listed.length_le (h : Listed spells close values text) : values.length ≤ text.length := by
  induction h with
  | last => simp; omega
  | more _ _ _ _ ih => simp; omega

/-- Behind its blanks the text of a list is a text of the same list. -/
theorem Listed.skipBlanks_append (h : Listed spells close values text)
    (hbegins : ∀ value text, spells value text → Begins text) (rest : List Char) :
    ∃ c more, skipBlanks (text ++ rest) = c :: (more ++ rest) ∧ c ≠ ']' ∧ c ≠ '\x7d' ∧
      Listed spells close values (c :: more) := by
  cases h with
  | last blankBefore spelled blankBehind =>
      obtain ⟨c, more, rfl, hblank, hsquare, hcurly⟩ := hbegins _ _ spelled
      refine ⟨c, more ++ (_ ++ [close]), ?_, hsquare, hcurly, .last allBlank_nil spelled blankBehind⟩
      rw [List.append_assoc]
      exact skipBlanks_append_cons blankBefore hblank _
  | more blankBefore spelled blankBehind others =>
      obtain ⟨c, more, rfl, hblank, hsquare, hcurly⟩ := hbegins _ _ spelled
      refine ⟨c, more ++ (_ ++ ',' :: _), ?_, hsquare, hcurly, .more allBlank_nil spelled blankBehind others⟩
      rw [List.append_assoc]
      exact skipBlanks_append_cons blankBefore hblank _

/-- The items of an array are read one by one. -/
theorem Listed.readItems_append {item : Reader β} {fits : α → β → Prop} (h : Listed spells ']' values text)
    (hitem : ∀ value ∈ values, ∀ text, spells value text → ReadsAs item (fits value) text) {bound : Nat}
    (hbound : values.length ≤ bound) (rest : List Char) :
    ∃ results, List.Forall₂ fits values results ∧ readItems item bound (text ++ rest) = .ok (results, rest) := by
  induction h generalizing bound with
  | @last value before text behind blankBefore spelled blankBehind =>
      -- The bound counts the items that may still come, so there is one left for this item.
      obtain ⟨bound, rfl⟩ : ∃ n, bound = n + 1 := ⟨bound - 1, by simp at hbound; omega⟩
      obtain ⟨result, hfits, hread⟩ := hitem value List.mem_cons_self text spelled before (behind ++ (']' :: rest))
        blankBefore (delimited_append blankBehind (by decide))
      have hskip := @skipBlanks_append_cons behind ']' blankBehind (by decide) rest
      refine ⟨[result], .cons hfits .nil, ?_⟩
      simp only [List.append_assoc, List.cons_append, List.nil_append, readItems, hread, hskip, if_true]
  | @more value values before text behind others blankBefore spelled blankBehind _ ih =>
      obtain ⟨bound, rfl⟩ : ∃ n, bound = n + 1 := ⟨bound - 1, by simp at hbound; omega⟩
      obtain ⟨result, hfits, hread⟩ := hitem value List.mem_cons_self text spelled before
        (behind ++ (',' :: (others ++ rest))) blankBefore (delimited_append blankBehind (by decide))
      have hskip := @skipBlanks_append_cons behind ',' blankBehind (by decide) (others ++ rest)
      obtain ⟨results, hresults, hothers⟩ := ih (fun value hmem => hitem value (List.mem_cons_of_mem _ hmem))
        (Nat.le_of_succ_le_succ hbound)
      have hcomma : ¬ ',' = ']' := by decide
      refine ⟨result :: results, .cons hfits hresults, ?_⟩
      simp only [List.append_assoc, List.cons_append, readItems, hread, hskip, hcomma, if_false, if_true, hothers]

/-- An array is read behind its opening bracket. -/
theorem Bracketed.readArrayBody_append {item : Reader β} {fits : α → β → Prop} (h : Bracketed spells ']' values text)
    (hbegins : ∀ value text, spells value text → Begins text)
    (hitem : ∀ value ∈ values, ∀ text, spells value text → ReadsAs item (fits value) text) (rest : List Char) :
    ∃ results, List.Forall₂ fits values results ∧ readArrayBody item (text ++ rest) = .ok (results, rest) := by
  unfold readArrayBody
  cases h with
  | @empty blanks blank =>
      have hskip := @skipBlanks_append_cons blanks ']' blank (by decide) rest
      refine ⟨[], .nil, ?_⟩
      simp only [List.append_assoc, List.cons_append, List.nil_append, hskip, if_true]
  | listed parts =>
      obtain ⟨c, more, hskip, hsquare, -, hparts⟩ := parts.skipBlanks_append hbegins rest
      have hbound : values.length ≤ (text ++ rest).length := by
        have hlength := parts.length_le
        rw [List.length_append]
        omega
      have hread := hparts.readItems_append hitem hbound rest
      simp only [hskip, hsquare, if_false]
      exact hread

end Listed

section Members

variable {spells : Json → List Char → Prop} {members : List (String × Json)} {text : List Char} {mode : Mode}

/-- A key is read with the colon behind it. -/
theorem readKey_append {key : String} {before keyText behind : List Char} (hkey : SpellsString key keyText)
    (hbefore : AllBlank before) (hbehind : AllBlank behind) (mode : Mode) (rest : List Char) :
    ∃ result, mode.Gives key result ∧
      readKey mode (before ++ (keyText ++ (behind ++ ':' :: rest))) = .ok (result, rest) := by
  obtain ⟨body, hbody, rfl⟩ := hkey
  obtain ⟨chars, hgives, hread⟩ := hbody.readStringBody_append mode (behind ++ ':' :: rest)
  have hquote := @skipBlanks_append_cons before '"' hbefore (by decide) (body ++ '"' :: (behind ++ ':' :: rest))
  have hcolon := @skipBlanks_append_cons behind ':' hbehind (by decide) rest
  refine ⟨String.ofList chars, ?_, ?_⟩
  · intro hkept
    rw [hgives hkept, String.ofList_toList]
  · unfold readKey
    simp only [List.append_assoc, List.cons_append, List.nil_append, hquote, if_true, hread, hcolon]

/-- The members of an object are read one by one. -/
theorem Listed.readMembers_append {member : String → Reader Json} {fits : String × Json → String × Json → Prop}
    (h : Listed (SpellsMember spells) '\x7d' members text)
    (hmember : ∀ pair ∈ members, ∀ key, mode.Gives pair.1 key → ∀ text, spells pair.2 text →
      ReadsAs (member key) (fun value => fits pair (key, value)) text) {bound : Nat}
    (hbound : members.length ≤ bound) (rest : List Char) :
    ∃ results, List.Forall₂ fits members results ∧
      readMembers mode member bound (text ++ rest) = .ok (results, rest) := by
  induction h generalizing bound with
  | @last pair before pairText behind blankBefore spelled blankBehind =>
      obtain ⟨bound, rfl⟩ : ∃ n, bound = n + 1 := ⟨bound - 1, by simp at hbound; omega⟩
      cases spelled with
      | @intro key value keyText blanks gap text spelledKey blankBlanks blankGap spelledValue =>
          obtain ⟨name, hname, hkey⟩ := readKey_append spelledKey blankBefore blankBlanks mode
            (gap ++ (text ++ (behind ++ ('\x7d' :: rest))))
          obtain ⟨result, hfits, hvalue⟩ := hmember (key, value) List.mem_cons_self name hname text spelledValue gap
            (behind ++ ('\x7d' :: rest)) blankGap (delimited_append blankBehind (by decide))
          have hskip := @skipBlanks_append_cons behind '\x7d' blankBehind (by decide) rest
          refine ⟨[(name, result)], .cons hfits .nil, ?_⟩
          simp only [List.append_assoc, List.cons_append, List.nil_append, readMembers, hkey, hvalue, hskip, if_true]
  | @more pair members before pairText behind others blankBefore spelled blankBehind _ ih =>
      obtain ⟨bound, rfl⟩ : ∃ n, bound = n + 1 := ⟨bound - 1, by simp at hbound; omega⟩
      obtain ⟨results, hresults, hothers⟩ := ih (fun pair hmem => hmember pair (List.mem_cons_of_mem _ hmem))
        (Nat.le_of_succ_le_succ hbound)
      cases spelled with
      | @intro key value keyText blanks gap text spelledKey blankBlanks blankGap spelledValue =>
          obtain ⟨name, hname, hkey⟩ := readKey_append spelledKey blankBefore blankBlanks mode
            (gap ++ (text ++ (behind ++ (',' :: (others ++ rest)))))
          obtain ⟨result, hfits, hvalue⟩ := hmember (key, value) List.mem_cons_self name hname text spelledValue gap
            (behind ++ (',' :: (others ++ rest))) blankGap (delimited_append blankBehind (by decide))
          have hskip := @skipBlanks_append_cons behind ',' blankBehind (by decide) (others ++ rest)
          have hcomma : ¬ ',' = '\x7d' := by decide
          refine ⟨(name, result) :: results, .cons hfits hresults, ?_⟩
          simp only [List.append_assoc, List.cons_append, readMembers, hkey, hvalue, hskip, hcomma, if_false, if_true,
            hothers]

/-- An object is read behind its opening bracket. -/
theorem Bracketed.readObjectBody_append {member : String → Reader Json} {fits : String × Json → String × Json → Prop}
    (h : Bracketed (SpellsMember spells) '\x7d' members text)
    (hmember : ∀ pair ∈ members, ∀ key, mode.Gives pair.1 key → ∀ text, spells pair.2 text →
      ReadsAs (member key) (fun value => fits pair (key, value)) text) (rest : List Char) :
    ∃ results, List.Forall₂ fits members results ∧ readObjectBody mode member (text ++ rest) = .ok (results, rest) := by
  unfold readObjectBody
  cases h with
  | @empty blanks blank =>
      have hskip := @skipBlanks_append_cons blanks '\x7d' blank (by decide) rest
      refine ⟨[], .nil, ?_⟩
      simp only [List.append_assoc, List.cons_append, List.nil_append, hskip, if_true]
  | listed parts =>
      obtain ⟨c, more, hskip, -, hcurly, hparts⟩ := parts.skipBlanks_append (fun _ _ hspelled => hspelled.begins) rest
      have hbound : members.length ≤ (text ++ rest).length := by
        have hlength := parts.length_le
        rw [List.length_append]
        omega
      have hread := hparts.readMembers_append hmember hbound rest
      simp only [hskip, hcurly, if_false]
      exact hread

end Members

/-! ## Reading values -/

theorem readValue_append {before : List Char} (h : AllBlank before) (mode : Mode) (brackets : Nat) (text : List Char) :
    readValue mode brackets (before ++ text) = readValue mode brackets text := by
  unfold readValue
  rw [skipBlanks_append h]

/-- A number that would be kept can be skipped. -/
theorem readNumber_of_kept {negative : Bool} {text rest : List Char} {json : Json} (mode : Mode)
    (h : readNumber .kept negative text = .ok (json, rest)) :
    ∃ result, mode.Gives json result ∧ readNumber mode negative text = .ok (result, rest) := by
  cases mode with
  | kept => exact ⟨json, Mode.gives_refl _ json, h⟩
  | skipped =>
      refine ⟨.null, fun hkept => absurd hkept (by decide), ?_⟩
      unfold readNumber at h ⊢
      cases hliteral : readLiteral negative text with
      | error fault => simp [hliteral] at h
      | ok result =>
          cases hvalue : result.1.value? with
          | none => simp [hliteral, hvalue] at h
          | some value =>
              simp only [hliteral, hvalue, Except.ok.injEq, Prod.mk.injEq] at h
              simp only [h.2]

/-- A value without brackets is read back. -/
theorem SpellsLeaf.readValue_append {json : Json} {text rest : List Char} (h : SpellsLeaf json text)
    (hrest : Delimited rest) (mode : Mode) (brackets : Nat) :
    ∃ result, mode.Gives json result ∧ readValue mode brackets (text ++ rest) = .ok (result, rest) := by
  unfold readValue
  cases h with
  | null =>
      have htext : "null".toList ++ rest = 'n' :: ("ull".toList ++ rest) := rfl
      rw [htext, skipBlanks_cons (by decide)]
      exact ⟨.null, mode.gives_refl _, by simp [readWord, readLetters]⟩
  | @bool value =>
      refine ⟨.bool value, mode.gives_refl _, ?_⟩
      cases value with
      | true =>
          have htext : writeBool true ++ rest = 't' :: ("rue".toList ++ rest) := rfl
          rw [htext, skipBlanks_cons (by decide)]
          simp [readWord, readLetters]
      | false =>
          have htext : writeBool false ++ rest = 'f' :: ("alse".toList ++ rest) := rfl
          rw [htext, skipBlanks_cons (by decide)]
          simp [readWord, readLetters]
  | @number value text reads =>
      obtain ⟨negative, digits, rfl, ⟨c, more, rfl, hdigit⟩, hread⟩ := reads
      obtain ⟨result, hgives, hnumber⟩ := readNumber_of_kept mode (hread rest hrest)
      refine ⟨result, hgives, ?_⟩
      have hsigned := readValue_signed ⟨c, more ++ rest, rfl, hdigit⟩ mode brackets negative
      unfold readValue at hsigned
      rw [List.append_assoc, List.cons_append, hsigned]
      exact hnumber
  | @string value text spelled =>
      obtain ⟨body, hbody, rfl⟩ := spelled
      obtain ⟨chars, hgives, hread⟩ := hbody.readStringBody_append mode rest
      refine ⟨.string (String.ofList chars), ?_, ?_⟩
      · intro hkept
        rw [hgives hkept, String.ofList_toList]
      · rw [List.cons_append, List.append_assoc, skipBlanks_cons (by decide)]
        simp only [if_true]
        rw [List.cons_append, List.nil_append, hread]
        rfl

/-- What is read item by item is given item by item. -/
theorem Mode.gives_of_forall₂ {α : Type} {mode : Mode} {values results : List α}
    (h : List.Forall₂ mode.Gives values results) : mode.Gives values results := by
  intro hkept
  induction h with
  | nil => rfl
  | cons hfirst _ ih => rw [hfirst hkept, ih]

/-- Every value is read: back to itself where it is kept, and past its end where it is skipped. -/
theorem readsAs_readValue (mode : Mode) {brackets : Nat} {json : Json} {text : List Char}
    (h : Spells brackets json text) : ReadsAs (readValue mode brackets) (mode.Gives json) text := by
  induction brackets generalizing json text with
  | zero =>
      intro before rest hbefore hrest
      rw [readValue_append hbefore]
      exact SpellsLeaf.readValue_append h hrest mode 0
  | succ brackets ih =>
      intro before rest hbefore hrest
      rw [readValue_append hbefore]
      rcases h with hleaf | haround
      · exact hleaf.readValue_append hrest mode (brackets + 1)
      · unfold readValue
        cases haround with
        | @array items text inside =>
            obtain ⟨results, hresults, hread⟩ := inside.readArrayBody_append (fun _ _ hspelled => hspelled.begins)
              (fun item _ text hspelled => ih hspelled) rest
            have hgives := Mode.gives_of_forall₂ hresults
            refine ⟨.array results, fun hkept => congrArg Json.array (hgives hkept), ?_⟩
            rw [List.cons_append, skipBlanks_cons (by decide)]
            simp [hread, mapRead]
        | @object members text inside =>
            obtain ⟨results, hresults, hread⟩ := @Bracketed.readObjectBody_append _ _ _ mode
              (fun _ => readValue mode brackets) mode.Gives inside
              (fun pair _ key hkey text hspelled => (ih hspelled).mono fun value hvalue hkept => by
                rw [hkey hkept, hvalue hkept]) rest
            have hgives := Mode.gives_of_forall₂ hresults
            refine ⟨.object results, fun hkept => congrArg Json.object (hgives hkept), ?_⟩
            rw [List.cons_append, skipBlanks_cons (by decide)]
            simp [hread, mapRead]

/-- The reader for a number of brackets takes every text that spells a value with them back to the value. -/
def Reads (reader : Nat → Reader Json) (brackets : Nat) (json : Json) : Prop :=
  ∀ text, Spells brackets json text → ReadsBack (reader brackets) json text

/-- Every value is read back. -/
theorem reads_readValue (brackets : Nat) (json : Json) : Reads (readValue .kept) brackets json := by
  intro text hspells
  exact readsBack_iff.mpr ((readsAs_readValue .kept hspells).mono fun value hgives => (hgives rfl).symm)

/-- An array is read back by a reader for lists whose items are. -/
theorem reads_readList {item : Nat → Reader Json} {brackets : Nat} {items : List Json}
    (h : ∀ json ∈ items, Reads item brackets json) : Reads (readList item) (brackets + 1) (.array items) := by
  intro text hspells before rest hbefore hrest
  rcases hspells with hleaf | haround
  · exact nomatch hleaf
  · cases haround with
    | @array _ text inside =>
        obtain ⟨results, hresults, hread⟩ := inside.readArrayBody_append (fun _ _ hspelled => hspelled.begins)
          (fun json hmem text hspelled => readsBack_iff.mp (h json hmem text hspelled)) rest
        rw [List.forall₂_eq_eq_eq] at hresults
        subst hresults
        have hskip := @skipBlanks_append_cons before '[' hbefore (by decide) (text ++ rest)
        simp only [readList, List.cons_append, hskip, hread, mapRead]

/-- An object is read by a reader for records. What stands under a key that is no field is skipped. -/
theorem readsAs_readRecord {fields : List (String × (Nat → Reader Json))} {brackets : Nat}
    {members : List (String × Json)} {spells : Json → List Char → Prop} {fits : String × Json → String × Json → Prop}
    (h : ∀ pair ∈ members, ∀ text, spells pair.2 text →
      ReadsAs (memberReader fields brackets pair.1) (fun value => fits pair (pair.1, value)) text)
    {text : List Char} (inside : Bracketed (SpellsMember spells) '\x7d' members text) :
    ReadsAs (readRecord fields (brackets + 1))
      (fun json => ∃ results, List.Forall₂ fits members results ∧ json = .object results) ('\x7b' :: text) := by
  intro before rest hbefore hrest
  have hmember : ∀ pair ∈ members, ∀ key, Mode.kept.Gives pair.1 key → ∀ text, spells pair.2 text →
      ReadsAs (memberReader fields brackets key) (fun value => fits pair (key, value)) text := by
    intro pair hmem key hkey text hspelled
    rw [hkey rfl]
    exact h pair hmem text hspelled
  obtain ⟨results, hresults, hread⟩ := inside.readObjectBody_append hmember rest
  have hskip := @skipBlanks_append_cons before '\x7b' hbefore (by decide) (text ++ rest)
  refine ⟨.object results, ⟨results, hresults, rfl⟩, ?_⟩
  simp only [readRecord, List.cons_append, hskip, hread, mapRead]

/-- An object is read back by a reader for records that has a field for each of its keys. -/
theorem reads_readRecord {fields : List (String × (Nat → Reader Json))} {brackets : Nat}
    {members : List (String × Json)}
    (h : ∀ pair ∈ members, ∃ reader, fields.lookup pair.1 = some reader ∧ Reads reader brackets pair.2) :
    Reads (readRecord fields) (brackets + 1) (.object members) := by
  intro text hspells
  have hmember : ∀ pair ∈ members, ∀ text, Spells brackets pair.2 text →
      ReadsAs (memberReader fields brackets pair.1) (fun value => pair = (pair.1, value)) text := by
    intro pair hmem text hspelled
    obtain ⟨reader, hlookup, hreads⟩ := h pair hmem
    unfold memberReader
    rw [hlookup]
    exact (readsBack_iff.mp (hreads text hspelled)).mono fun value hvalue => by rw [← hvalue]
  rcases hspells with hleaf | haround
  · exact nomatch hleaf
  · cases haround with
    | @object _ text inside =>
        apply readsBack_iff.mpr
        apply (@readsAs_readRecord fields brackets members (Spells brackets) Eq hmember text inside).mono
        rintro value ⟨results, hresults, rfl⟩
        rw [List.forall₂_eq_eq_eq] at hresults
        rw [hresults]

/-- A document is read from a text with any blanks around it. -/
theorem readDocument_of_readsAs {document : Nat → Reader Json} {fits : Json → Prop} {before text behind : List Char}
    (h : ReadsAs (document bracketLimit) fits text) (hbefore : AllBlank before) (hbehind : AllBlank behind) :
    ∃ json, fits json ∧ readDocument document (String.ofList (before ++ (text ++ behind))) = .ok json := by
  have hdelimited : Delimited behind := by
    intro c hc
    exact Or.inl (hbehind c (List.mem_of_mem_head? hc))
  obtain ⟨json, hfits, hread⟩ := h before behind hbefore hdelimited
  have hend : skipBlanks behind = [] := by
    have hskip := skipBlanks_append hbehind []
    rwa [List.append_nil] at hskip
  refine ⟨json, hfits, ?_⟩
  unfold readDocument
  simp [hread, hend]

/-- A document is read back from a text that spells it. -/
theorem readDocument_of_spells {document : Nat → Reader Json} {json : Json} {before text behind : List Char}
    (h : Reads document bracketLimit json) (hspells : Spells bracketLimit json text) (hbefore : AllBlank before)
    (hbehind : AllBlank behind) :
    readDocument document (String.ofList (before ++ (text ++ behind))) = .ok json := by
  obtain ⟨_, rfl, hread⟩ := readDocument_of_readsAs (readsBack_iff.mp (h text hspells)) hbefore hbehind
  exact hread

end ScriptBytecode.Json
