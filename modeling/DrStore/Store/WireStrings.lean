import DrStore.Base.PyText
import DrStore.Store.ContentAddressing

/-! # Wire strings of references (content_addressing.py, `format_object_reference`)

A wire string is the pinned prefix, the schema and the hash, joined by colons. Any Python string may
be parsed, so the checks of a reference are stated for those as well; `repr` is Python's. -/
namespace DrStore.Store.WireStrings
open DrStore.Base.PyText DrStore.Store.ContentAddressing

def objectReferencePrefix : String := "dr-store-object:v1"

def separator : CodePoint := codePoint ':'

/-! ## References of Python strings -/

section

variable (repr : PyStr → String)

def validateReferenceSchema (schema : PyStr) : Except StoreError String :=
  match text? schema with
  | some schema => ContentAddressing.validateReferenceSchema schema
  -- an unpaired surrogate
  | none => .error (storageTextError "ObjectReference schema")

def validateContentHash (contentHash : PyStr) : Except StoreError String :=
  match (text? contentHash).filter isContentHash with
  | some contentHash => .ok contentHash
  | none => .error (.referenceValidation
      ("content hash must be a 64-character lowercase hex SHA-256 hash, got " ++ repr contentHash))

/-- `ObjectReference(schema=..., content_hash=...)`. -/
def makeReference (schema contentHash : PyStr) : Except StoreError ObjectReference := do
  let schema ← validateReferenceSchema schema
  let contentHash ← validateContentHash repr contentHash
  ObjectReference.make schema contentHash

/-! ## The two directions -/

def formatObjectReference (reference : ObjectReference) : String :=
  objectReferencePrefix ++ ":" ++ reference.schema ++ ":" ++ reference.contentHash

def parseObjectReference (value : PyStr) : Except StoreError ObjectReference :=
  if (ofString (objectReferencePrefix ++ ":")).isPrefixOf value = false then
    .error (.referenceValidation "object reference wire string has an unsupported prefix")
  else
    match rpartition separator (value.drop (ofString (objectReferencePrefix ++ ":")).length) with
    | (schema, found, contentHash) =>
      if found = [] ∨ schema = [] ∨ contentHash = [] then
        .error (.referenceValidation "object reference wire string is malformed")
      else makeReference repr schema contentHash

theorem makeReference_self (r : ObjectReference) :
    makeReference repr (ofString r.schema) (ofString r.contentHash) = .ok r := by
  have hschema : validateReferenceSchema (ofString r.schema) = .ok r.schema := by
    rw [validateReferenceSchema, text?_ofString]
    exact if_pos r.schema_valid
  have hhash : validateContentHash repr (ofString r.contentHash) = .ok r.contentHash := by
    rw [validateContentHash, text?_ofString, Option.filter_some, if_pos r.hash_valid]
  rw [makeReference, hschema, hhash]
  exact r.make_self

omit repr in
theorem schemaError_message (schema : String) :
    ∃ message, schemaError schema = .referenceValidation message := by
  unfold schemaError
  split
  · exact ⟨_, rfl⟩
  · exact ⟨_, rfl⟩

/-- A refusal, or the reference of just these strings. -/
theorem makeReference_cases (schema contentHash : PyStr) :
    (∃ message, makeReference repr schema contentHash = .error (.referenceValidation message)) ∨
      ∃ r, makeReference repr schema contentHash = .ok r ∧ ofString r.schema = schema ∧
        ofString r.contentHash = contentHash := by
  have hschema : (∃ message, validateReferenceSchema schema = .error (.referenceValidation message)) ∨
      ∃ text, validateReferenceSchema schema = .ok text ∧ ofString text = schema ∧
        isReferenceSchema text = true := by
    unfold validateReferenceSchema
    cases htext : text? schema with
    | none => exact .inl ⟨_, rfl⟩
    | some text =>
      by_cases hvalid : isReferenceSchema text = true
      · exact .inr ⟨text, if_pos hvalid, ofString_of_text? htext, hvalid⟩
      · obtain ⟨message, hmessage⟩ := schemaError_message text
        exact .inl ⟨message, hmessage ▸ if_neg hvalid⟩
  have hhash : (∃ message, validateContentHash repr contentHash =
        .error (.referenceValidation message)) ∨
      ∃ text, validateContentHash repr contentHash = .ok text ∧ ofString text = contentHash ∧
        isContentHash text = true := by
    unfold validateContentHash
    cases hfound : (text? contentHash).filter isContentHash with
    | none => exact .inl ⟨_, rfl⟩
    | some text =>
      obtain ⟨htext, hvalid⟩ := Option.filter_eq_some_iff.mp hfound
      exact .inr ⟨text, rfl, ofString_of_text? htext, hvalid⟩
  unfold makeReference
  obtain ⟨message, hrefused⟩ | ⟨schema', hschema, rfl, hs⟩ := hschema
  · exact .inl ⟨message, by rw [hrefused]; rfl⟩
  obtain ⟨message, hrefused⟩ | ⟨contentHash', hhash, rfl, hh⟩ := hhash
  · exact .inl ⟨message, by rw [hschema, hrefused]; rfl⟩
  refine .inr ⟨⟨schema', contentHash', hs, hh⟩, ?_, rfl, rfl⟩
  rw [hschema, hhash]
  exact ObjectReference.make_self ⟨schema', contentHash', hs, hh⟩

/-! ## Round trips -/

/-- No hash contains the separator. -/
theorem separator_not_mem {contentHash : String} (h : isContentHash contentHash = true) :
    separator ∉ ofString contentHash := by
  intro hmem
  obtain ⟨c, hc, heq⟩ := List.mem_map.mp hmem
  obtain ⟨_, hdigits⟩ := Bool.and_eq_true_iff.mp h
  have hdigit : hexDigits.contains c = true := List.all_eq_true.mp hdigits c hc
  have hcolon : c = ':' := by
    have hchar := congrArg char? heq
    simpa [separator] using hchar
  rw [hcolon] at hdigit
  exact absurd hdigit (by decide)

theorem ofString_format (r : ObjectReference) : ofString (formatObjectReference r) =
    ofString (objectReferencePrefix ++ ":") ++
      (ofString r.schema ++ separator :: ofString r.contentHash) := by
  have hcolon : ofString ":" = [separator] := rfl
  simp only [formatObjectReference, ofString_append, hcolon, List.append_assoc, List.cons_append,
    List.nil_append]

theorem ofString_ne_nil {s : String} (h : s ≠ "") : ofString s ≠ [] :=
  fun hnil => h (ofString_inj hnil)

theorem parse_format (r : ObjectReference) :
    parseObjectReference repr (ofString (formatObjectReference r)) = .ok r := by
  have hschema : r.schema ≠ "" := by
    intro hempty
    have hvalid := r.schema_valid
    rw [hempty] at hvalid
    exact absurd hvalid (by decide)
  have hhash : r.contentHash ≠ "" := by
    intro hempty
    have hvalid := r.hash_valid
    rw [hempty] at hvalid
    exact absurd hvalid (by decide)
  unfold parseObjectReference
  rw [ofString_format, if_neg (by simp), List.drop_left,
    rpartition_append _ (separator_not_mem r.hash_valid)]
  dsimp only
  rw [if_neg (by simp [ofString_ne_nil hschema, ofString_ne_nil hhash])]
  exact makeReference_self repr r

theorem format_parse (value : PyStr) :
    (∃ message, parseObjectReference repr value = .error (.referenceValidation message)) ∨
      ∃ r, parseObjectReference repr value = .ok r ∧ ofString (formatObjectReference r) = value := by
  unfold parseObjectReference
  split
  · exact .inl ⟨_, rfl⟩
  · rename_i hbegins
    have hstarts := List.isPrefixOf_iff_prefix.mp (Bool.not_eq_false _ ▸ hbegins)
    obtain ⟨remainder, rfl⟩ := hstarts
    rw [List.drop_left]
    obtain ⟨schema, contentHash, _, ⟨hparts, rfl⟩ | ⟨hparts, rfl⟩⟩ := rpartition_parts separator remainder
    · rw [hparts]
      dsimp only
      split
      · exact .inl ⟨_, rfl⟩
      · obtain hrefused | ⟨r, hmade, rfl, rfl⟩ := makeReference_cases repr schema contentHash
        · exact .inl hrefused
        · exact .inr ⟨r, hmade, ofString_format r⟩
    · rw [hparts]
      exact .inl ⟨_, if_pos (.inl rfl)⟩

end

/-- **Wire strings are a bijection with valid references.** Formatting a reference and parsing it
gives it back; parsing any Python string refuses it, or gives the reference whose wire string it is;
the accepted strings are the prefix, a valid schema and a hash joined by colons; and no two
references share one. -/
theorem wire_strings_bijective (repr : PyStr → String) :
    (∀ r, parseObjectReference repr (ofString (formatObjectReference r)) = .ok r) ∧
    (∀ value, (∃ message, parseObjectReference repr value = .error (.referenceValidation message)) ∨
      ∃ r, parseObjectReference repr value = .ok r ∧ ofString (formatObjectReference r) = value) ∧
    (∀ value, (∃ r, parseObjectReference repr value = .ok r) ↔
      ∃ schema contentHash, isReferenceSchema schema = true ∧ isContentHash contentHash = true ∧
        value = ofString ("dr-store-object:v1:" ++ schema ++ ":" ++ contentHash)) ∧
    ∀ r r', formatObjectReference r = formatObjectReference r' → r = r' := by
  have hformat : ∀ r, formatObjectReference r =
      "dr-store-object:v1:" ++ r.schema ++ ":" ++ r.contentHash := fun r => rfl
  refine ⟨parse_format repr, format_parse repr, fun value => ⟨?_, ?_⟩, ?_⟩
  · intro haccepted
    obtain ⟨r, haccepted⟩ := haccepted
    obtain ⟨_, hrefused⟩ | ⟨r', hparsed, rfl⟩ := format_parse repr value
    · rw [haccepted] at hrefused
      cases hrefused
    · exact ⟨r'.schema, r'.contentHash, r'.schema_valid, r'.hash_valid, by rw [hformat]⟩
  · intro hform
    obtain ⟨schema, contentHash, hs, hh, rfl⟩ := hform
    exact ⟨⟨schema, contentHash, hs, hh⟩, parse_format repr ⟨schema, contentHash, hs, hh⟩⟩
  · intro r r' heq
    have hr := parse_format repr r
    rw [heq, parse_format repr r'] at hr
    exact (Except.ok.inj hr).symm

end DrStore.Store.WireStrings
