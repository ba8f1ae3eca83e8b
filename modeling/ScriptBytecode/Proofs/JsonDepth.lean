import ScriptBytecode.Proofs.JsonText

/-!
# Brackets inside each other

`Json.depth` counts how many brackets are open at once in the text of a value, at the place where most are. A text that
spells a value does so with that number of brackets (`Spells.of_depth_le`) and with no smaller one (`Spells.depth_le`). So
the reader for a number of brackets reads the shallow values, and refuses the deep ones wherever their depth shows
(`refuses_readValue`). A value that is skipped may have any depth, because a text has more characters than brackets.
-/

namespace ScriptBytecode.Json

/-! ## Depth -/

mutual

/-- How many brackets are open at once where most of them are. -/
def depth : Json → Nat
  | .null => 0
  | .bool _ => 0
  | .number _ => 0
  | .string _ => 0
  | .array items => depthOfItems items + 1
  | .object members => depthOfMembers members + 1

def depthOfItems : List Json → Nat
  | [] => 0
  | item :: items => max item.depth (depthOfItems items)

def depthOfMembers : List (String × Json) → Nat
  | [] => 0
  | (_, value) :: members => max value.depth (depthOfMembers members)

end

theorem depthOfItems_le_iff {items : List Json} {brackets : Nat} :
    depthOfItems items ≤ brackets ↔ ∀ item ∈ items, item.depth ≤ brackets := by
  induction items with
  | nil => simp [depthOfItems]
  | cons item items ih => rw [depthOfItems, Nat.max_le, ih, List.forall_mem_cons]

theorem depthOfMembers_le_iff {members : List (String × Json)} {brackets : Nat} :
    depthOfMembers members ≤ brackets ↔ ∀ member ∈ members, member.2.depth ≤ brackets := by
  induction members with
  | nil => simp [depthOfMembers]
  | cons member members ih => rw [depthOfMembers, Nat.max_le, ih, List.forall_mem_cons]

theorem depth_array_le_iff {items : List Json} {brackets : Nat} :
    (array items).depth ≤ brackets + 1 ↔ ∀ item ∈ items, item.depth ≤ brackets := by
  rw [depth, Nat.add_le_add_iff_right, depthOfItems_le_iff]

theorem depth_object_le_iff {members : List (String × Json)} {brackets : Nat} :
    (object members).depth ≤ brackets + 1 ↔ ∀ member ∈ members, member.2.depth ≤ brackets := by
  rw [depth, Nat.add_le_add_iff_right, depthOfMembers_le_iff]

theorem SpellsLeaf.depth_eq {json : Json} {text : List Char} (h : SpellsLeaf json text) : json.depth = 0 := by
  cases h <;> rfl

section Parts

variable {α : Type} {spells suits : α → List Char → Prop} {close : Char} {values : List α} {text : List Char}

theorem Listed.imp (h : Listed spells close values text)
    (himp : ∀ value ∈ values, ∀ text, spells value text → suits value text) : Listed suits close values text := by
  induction h with
  | last blankBefore spelled blankBehind =>
      exact .last blankBefore (himp _ List.mem_cons_self _ spelled) blankBehind
  | more blankBefore spelled blankBehind _ ih =>
      exact .more blankBefore (himp _ List.mem_cons_self _ spelled) blankBehind
        (ih fun value hmem => himp value (List.mem_cons_of_mem _ hmem))

theorem Bracketed.imp (h : Bracketed spells close values text)
    (himp : ∀ value ∈ values, ∀ text, spells value text → suits value text) : Bracketed suits close values text := by
  cases h with
  | empty blank => exact .empty blank
  | listed parts => exact .listed (parts.imp himp)

/-- Every part is spelled by a part of the text. -/
theorem Listed.exists_spelled (h : Listed spells close values text) :
    ∀ value ∈ values, ∃ part, spells value part ∧ part.length ≤ text.length := by
  induction h with
  | @last value before part behind blankBefore spelled blankBehind =>
      intro other hmem
      obtain rfl := List.mem_singleton.mp hmem
      exact ⟨part, spelled, by simp; omega⟩
  | @more value values before part behind others blankBefore spelled blankBehind _ ih =>
      intro other hmem
      rcases List.mem_cons.mp hmem with rfl | hmem
      · exact ⟨part, spelled, by simp; omega⟩
      · obtain ⟨part, hspelled, hlength⟩ := ih other hmem
        exact ⟨part, hspelled, by simp; omega⟩

theorem Bracketed.exists_spelled (h : Bracketed spells close values text) :
    ∀ value ∈ values, ∃ part, spells value part ∧ part.length ≤ text.length := by
  cases h with
  | empty _ => exact fun value hmem => absurd hmem List.not_mem_nil
  | listed parts => exact parts.exists_spelled

end Parts

theorem SpellsMember.imp {spells suits : Json → List Char → Prop} {member : String × Json} {text : List Char}
    (h : SpellsMember spells member text) (himp : ∀ text, spells member.2 text → suits member.2 text) :
    SpellsMember suits member text := by
  cases h with
  | intro spelledKey blankBehind blankBefore spelled => exact .intro spelledKey blankBehind blankBefore (himp _ spelled)

theorem SpellsMember.exists_spelled {spells : Json → List Char → Prop} {member : String × Json} {text : List Char}
    (h : SpellsMember spells member text) : ∃ part, spells member.2 part ∧ part.length ≤ text.length := by
  cases h with
  | @intro key value keyText behind before part spelledKey blankBehind blankBefore spelled =>
      exact ⟨part, spelled, by simp; omega⟩

/-- Only values with brackets have a depth. -/
theorem Spells.around_of_depth_pos {brackets : Nat} {json : Json} {text : List Char} (h : Spells brackets json text)
    (hdepth : 0 < json.depth) : ∃ inner, brackets = inner + 1 ∧ SpellsAround (Spells inner) json text := by
  cases brackets with
  | zero =>
      rw [SpellsLeaf.depth_eq h] at hdepth
      exact absurd hdepth (Nat.lt_irrefl 0)
  | succ inner =>
      rcases h with hleaf | haround
      · rw [hleaf.depth_eq] at hdepth
        exact absurd hdepth (Nat.lt_irrefl 0)
      · exact ⟨inner, rfl, haround⟩

/-- A text spells no value that is deeper than its number of brackets, and it has a character for each bracket. -/
theorem Spells.depth_le {brackets : Nat} {json : Json} {text : List Char} (h : Spells brackets json text) :
    json.depth ≤ min brackets text.length := by
  induction brackets generalizing json text with
  | zero =>
      rw [SpellsLeaf.depth_eq h]
      exact Nat.zero_le _
  | succ brackets ih =>
      rcases h with hleaf | haround
      · rw [hleaf.depth_eq]
        exact Nat.zero_le _
      · cases haround with
        | array inside =>
            rw [List.length_cons, Nat.add_min_add_right]
            apply depth_array_le_iff.mpr
            intro item hmem
            obtain ⟨part, hspelled, hlength⟩ := inside.exists_spelled item hmem
            have hdepth := ih hspelled
            omega
        | object inside =>
            rw [List.length_cons, Nat.add_min_add_right]
            apply depth_object_le_iff.mpr
            intro member hmem
            obtain ⟨part, hspelled, hlength⟩ := inside.exists_spelled member hmem
            obtain ⟨inner, hspelled, hinner⟩ := hspelled.exists_spelled
            have hdepth := ih hspelled
            omega

/-- A text spells a value with every number of brackets that its depth allows. -/
theorem Spells.of_depth_le {brackets limit : Nat} {json : Json} {text : List Char} (h : Spells brackets json text)
    (hlimit : json.depth ≤ limit) : Spells limit json text := by
  induction brackets generalizing limit json text with
  | zero => exact .of_leaf h
  | succ brackets ih =>
      rcases h with hleaf | haround
      · exact .of_leaf hleaf
      · cases limit with
        | zero => cases haround <;> simp [depth] at hlimit
        | succ limit =>
            refine Or.inr ?_
            cases haround with
            | array inside =>
                have hitems := depth_array_le_iff.mp hlimit
                exact .array (inside.imp fun item hmem text hspelled => ih hspelled (hitems item hmem))
            | object inside =>
                have hmembers := depth_object_le_iff.mp hlimit
                exact .object (inside.imp fun member hmem text hspelled =>
                  hspelled.imp fun text hvalue => ih hvalue (hmembers member hmem))

/-! ## Refusing what is too deep -/

/-- A reader refuses a text, behind any blanks and before any delimiter. -/
def Refuses {α : Type} (reader : Reader α) (text : List Char) : Prop :=
  ∀ before rest, AllBlank before → Delimited rest → reader (before ++ (text ++ rest)) = .error .malformed

/-- A reader gets over a text. -/
abbrev Passes {α : Type} (reader : Reader α) (text : List Char) : Prop :=
  ReadsAs reader (fun _ => True) text

section Items

variable {α β : Type} {spells : α → List Char → Prop} {item : Reader β} {deep : α → Prop} {values : List α}
  {text : List Char}

/-- The items of an array are read up to the first one that is refused. -/
theorem Listed.readItems_refused (h : Listed spells ']' values text)
    (hpasses : ∀ value ∈ values, ¬ deep value → ∀ text, spells value text → Passes item text)
    (hrefuses : ∀ value ∈ values, deep value → ∀ text, spells value text → Refuses item text)
    (hdeep : ∃ value ∈ values, deep value) (bound : Nat) (rest : List Char) :
    readItems item bound (text ++ rest) = .error .malformed := by
  induction h generalizing bound with
  | @last value before text behind blankBefore spelled blankBehind =>
      obtain ⟨other, hmem, hvalue⟩ := hdeep
      obtain rfl := List.mem_singleton.mp hmem
      have hread := hrefuses other hmem hvalue text spelled before (behind ++ (']' :: rest)) blankBefore
        (delimited_append blankBehind (by decide))
      cases bound with
      | zero => rfl
      | succ bound => simp only [List.append_assoc, List.cons_append, List.nil_append, readItems, hread]
  | @more value values before text behind others blankBefore spelled blankBehind _ ih =>
      have hrest := @delimited_append behind (others ++ rest) ',' blankBehind (by decide)
      cases bound with
      | zero => rfl
      | succ bound =>
          by_cases hvalue : deep value
          · have hread := hrefuses value List.mem_cons_self hvalue text spelled before _ blankBefore hrest
            simp only [List.append_assoc, List.cons_append, readItems, hread]
          · obtain ⟨result, -, hread⟩ := hpasses value List.mem_cons_self hvalue text spelled before _ blankBefore hrest
            have hothers := ih (fun value hmem => hpasses value (List.mem_cons_of_mem _ hmem))
              (fun value hmem => hrefuses value (List.mem_cons_of_mem _ hmem))
              (by simpa [hvalue] using hdeep) bound
            have hskip := @skipBlanks_append_cons behind ',' blankBehind (by decide) (others ++ rest)
            have hcomma : ¬ ',' = ']' := by decide
            simp only [List.append_assoc, List.cons_append, readItems, hread, hskip, hcomma, if_false, if_true, hothers]

theorem Bracketed.readArrayBody_refused (h : Bracketed spells ']' values text)
    (hbegins : ∀ value text, spells value text → Begins text)
    (hpasses : ∀ value ∈ values, ¬ deep value → ∀ text, spells value text → Passes item text)
    (hrefuses : ∀ value ∈ values, deep value → ∀ text, spells value text → Refuses item text)
    (hdeep : ∃ value ∈ values, deep value) (rest : List Char) :
    readArrayBody item (text ++ rest) = .error .malformed := by
  unfold readArrayBody
  cases h with
  | empty _ =>
      obtain ⟨value, hmem, -⟩ := hdeep
      exact absurd hmem List.not_mem_nil
  | listed parts =>
      obtain ⟨c, more, hskip, hsquare, -, hparts⟩ := parts.skipBlanks_append hbegins rest
      simp only [hskip, hsquare, if_false]
      exact hparts.readItems_refused hpasses hrefuses hdeep _ rest

end Items

section Members

variable {spells : Json → List Char → Prop} {member : String → Reader Json} {deep : String × Json → Prop}
  {members : List (String × Json)} {text : List Char}

/-- The members of an object are read up to the first one that is refused. -/
theorem Listed.readMembers_refused (h : Listed (SpellsMember spells) '\x7d' members text)
    (hpasses : ∀ pair ∈ members, ¬ deep pair → ∀ text, spells pair.2 text → Passes (member pair.1) text)
    (hrefuses : ∀ pair ∈ members, deep pair → ∀ text, spells pair.2 text → Refuses (member pair.1) text)
    (hdeep : ∃ pair ∈ members, deep pair) (bound : Nat) (rest : List Char) :
    readMembers .kept member bound (text ++ rest) = .error .malformed := by
  induction h generalizing bound with
  | @last pair before pairText behind blankBefore spelled blankBehind =>
      obtain ⟨other, hmem, hpair⟩ := hdeep
      obtain rfl := List.mem_singleton.mp hmem
      cases spelled with
      | @intro key value keyText blanks gap text spelledKey blankBlanks blankGap spelledValue =>
          obtain ⟨name, hname, hkey⟩ := readKey_append spelledKey blankBefore blankBlanks .kept
            (gap ++ (text ++ (behind ++ ('\x7d' :: rest))))
          obtain rfl := hname rfl
          have hvalue := hrefuses _ hmem hpair text spelledValue gap (behind ++ ('\x7d' :: rest)) blankGap
            (delimited_append blankBehind (by decide))
          cases bound with
          | zero => rfl
          | succ bound =>
              simp only [List.append_assoc, List.cons_append, List.nil_append, readMembers, hkey, hvalue]
  | @more pair members before pairText behind others blankBefore spelled blankBehind _ ih =>
      have hrest := @delimited_append behind (others ++ rest) ',' blankBehind (by decide)
      have hothers := fun hpair : ¬ deep pair => ih (fun pair hmem => hpasses pair (List.mem_cons_of_mem _ hmem))
        (fun pair hmem => hrefuses pair (List.mem_cons_of_mem _ hmem)) (by simpa [hpair] using hdeep)
      cases spelled with
      | @intro key value keyText blanks gap text spelledKey blankBlanks blankGap spelledValue =>
          obtain ⟨name, hname, hkey⟩ := readKey_append spelledKey blankBefore blankBlanks .kept
            (gap ++ (text ++ (behind ++ (',' :: (others ++ rest)))))
          obtain rfl := hname rfl
          cases bound with
          | zero => rfl
          | succ bound =>
              by_cases hpair : deep (name, value)
              · have hvalue := hrefuses _ List.mem_cons_self hpair text spelledValue gap _ blankGap hrest
                simp only [List.append_assoc, List.cons_append, readMembers, hkey, hvalue]
              · obtain ⟨result, -, hvalue⟩ := hpasses _ List.mem_cons_self hpair text spelledValue gap _ blankGap hrest
                have hskip := @skipBlanks_append_cons behind ',' blankBehind (by decide) (others ++ rest)
                have hcomma : ¬ ',' = '\x7d' := by decide
                simp only [List.append_assoc, List.cons_append, readMembers, hkey, hvalue, hskip, hcomma, if_false,
                  if_true, hothers hpair bound]

theorem Bracketed.readObjectBody_refused (h : Bracketed (SpellsMember spells) '\x7d' members text)
    (hpasses : ∀ pair ∈ members, ¬ deep pair → ∀ text, spells pair.2 text → Passes (member pair.1) text)
    (hrefuses : ∀ pair ∈ members, deep pair → ∀ text, spells pair.2 text → Refuses (member pair.1) text)
    (hdeep : ∃ pair ∈ members, deep pair) (rest : List Char) :
    readObjectBody .kept member (text ++ rest) = .error .malformed := by
  unfold readObjectBody
  cases h with
  | empty _ =>
      obtain ⟨pair, hmem, -⟩ := hdeep
      exact absurd hmem List.not_mem_nil
  | listed parts =>
      obtain ⟨c, more, hskip, -, hcurly, hparts⟩ := parts.skipBlanks_append (fun _ _ hspelled => hspelled.begins) rest
      simp only [hskip, hcurly, if_false]
      exact hparts.readMembers_refused hpasses hrefuses hdeep _ rest

end Members

/-- A value within the limit is passed. -/
theorem passes_readValue (mode : Mode) {brackets limit : Nat} {json : Json} {text : List Char}
    (h : Spells brackets json text) (hlimit : json.depth ≤ limit) : Passes (readValue mode limit) text :=
  (readsAs_readValue mode (h.of_depth_le hlimit)).mono fun _ _ => trivial

/-- A value with more brackets inside each other than the limit is refused. -/
theorem refuses_readValue {brackets limit : Nat} {json : Json} {text : List Char} (h : Spells brackets json text)
    (hlimit : limit < json.depth) : Refuses (readValue .kept limit) text := by
  -- The recursion is on the limit. Behind a bracket the first part that is deeper than what is left of it is refused.
  induction limit generalizing brackets json text with
  | zero =>
      intro before rest hbefore hrest
      obtain ⟨inner, rfl, haround⟩ := h.around_of_depth_pos hlimit
      rw [readValue_append hbefore]
      unfold readValue
      cases haround with
      | array inside =>
          rw [List.cons_append, skipBlanks_cons (by decide)]
          simp
      | object inside =>
          rw [List.cons_append, skipBlanks_cons (by decide)]
          simp
  | succ limit ih =>
      intro before rest hbefore hrest
      obtain ⟨inner, rfl, haround⟩ := h.around_of_depth_pos (Nat.zero_lt_of_lt hlimit)
      rw [readValue_append hbefore]
      unfold readValue
      cases haround with
      | @array items text inside =>
          have hdeep : ∃ item ∈ items, limit < item.depth := by
            simpa using mt depth_array_le_iff.mpr (Nat.not_le.mpr hlimit)
          have hread := inside.readArrayBody_refused (fun _ _ hspelled => hspelled.begins)
            (fun item _ hitem text hspelled => passes_readValue .kept hspelled (Nat.not_lt.mp hitem))
            (fun item _ hitem text hspelled => ih hspelled hitem) hdeep rest
          rw [List.cons_append, skipBlanks_cons (by decide)]
          simp [hread, mapRead]
      | @object members text inside =>
          have hdeep : ∃ member ∈ members, limit < member.2.depth := by
            simpa using mt depth_object_le_iff.mpr (Nat.not_le.mpr hlimit)
          have hread := @Bracketed.readObjectBody_refused _ (fun _ => readValue .kept limit) _ _ _ inside
            (fun member _ hmember text hspelled => passes_readValue .kept hspelled (Nat.not_lt.mp hmember))
            (fun member _ hmember text hspelled => ih hspelled hmember) hdeep rest
          rw [List.cons_append, skipBlanks_cons (by decide)]
          simp [hread, mapRead]

/-- A skipped value is passed whatever its depth is. -/
theorem passes_skipValue {brackets : Nat} {json : Json} {text : List Char} (h : Spells brackets json text) :
    Passes skipValue text := by
  intro before rest hbefore hrest
  have hlength : json.depth ≤ (before ++ (text ++ rest)).length := by
    have hdepth := h.depth_le
    simp only [List.length_append]
    omega
  exact passes_readValue .skipped h hlength before rest hbefore hrest

/-- An object is refused by a reader for records if a part of it is. -/
theorem refuses_readRecord {fields : List (String × (Nat → Reader Json))} {brackets : Nat}
    {members : List (String × Json)} {spells : Json → List Char → Prop} {deep : String × Json → Prop}
    (hpasses : ∀ pair ∈ members, ¬ deep pair → ∀ text, spells pair.2 text →
      Passes (memberReader fields brackets pair.1) text)
    (hrefuses : ∀ pair ∈ members, deep pair → ∀ text, spells pair.2 text →
      Refuses (memberReader fields brackets pair.1) text)
    (hdeep : ∃ pair ∈ members, deep pair) {text : List Char}
    (inside : Bracketed (SpellsMember spells) '\x7d' members text) :
    Refuses (readRecord fields (brackets + 1)) ('\x7b' :: text) := by
  intro before rest hbefore hrest
  have hread := inside.readObjectBody_refused hpasses hrefuses hdeep rest
  have hskip := @skipBlanks_append_cons before '\x7b' hbefore (by decide) (text ++ rest)
  simp only [readRecord, List.cons_append, hskip, hread, mapRead]

/-- A document that is refused is malformed, whatever blanks are around it. -/
theorem readDocument_of_refuses {document : Nat → Reader Json} {before text behind : List Char}
    (h : Refuses (document bracketLimit) text) (hbefore : AllBlank before) (hbehind : AllBlank behind) :
    readDocument document (String.ofList (before ++ (text ++ behind))) = .error .malformed := by
  have hread := h before behind hbefore fun c hc => Or.inl (hbehind c (List.mem_of_mem_head? hc))
  unfold readDocument
  simp [hread]

end ScriptBytecode.Json
