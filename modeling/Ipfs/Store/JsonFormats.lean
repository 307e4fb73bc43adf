import Ipfs.Store.JsmnDocuments

/-!
# Printing JSON

A format string is read once, with its arguments left open; whatever they are, what is printed has these lexemes.
-/

namespace Ipfs

/-! ## Format strings -/

/-- Each `%s` or `%d` stands for the next argument. -/
def fprintf : Bytes → List Bytes → Bytes
  | [], _ => []
  | c :: format, args =>
      if c = 0x25 then
        match format, args with
        | _ :: format, arg :: args => arg ++ fprintf format args
        | _, _ => []
      else c :: fprintf format args

deriving instance DecidableEq for JsonLexeme

inductive JsonTemplate
  | lexeme (lexeme : JsonLexeme)
  -- an argument between quotes
  | string
  -- an argument
  | primitive
  deriving DecidableEq

/-- What stands before the place that is looked at. -/
inductive JsonPending
  | white
  | string (text : Bytes)
  | primitive (text : Bytes)
  | percent (quoted : Bool)
  | arg (quoted : Bool)

def isPlain (c : UInt8) : Bool := c ≠ 0 && c ≠ 0x22 && c ≠ 0x5c && c ≠ 0x25

def isPrimitiveChar (c : UInt8) : Bool := jsonSign c = .other && 32 ≤ c && c < 127 && c ≠ 0x25

/-- Between the lexemes. -/
def JsonTemplate.ofSign : JsonSign → Option (List JsonTemplate × JsonPending)
  | .opens type => some ([.lexeme (.opens type)], .white)
  | .closes type => some ([.lexeme (.closes type)], .white)
  | .quote => some ([], .string [])
  | .white => some ([], .white)
  | .colon => some ([.lexeme .colon], .white)
  | .comma => some ([.lexeme .comma], .white)
  | .other => none

/-- Behind a primitive. -/
def JsonTemplate.behind (template : JsonTemplate) : JsonSign → Option (List JsonTemplate)
  | .white => some [template]
  | .comma => some [template, .lexeme .comma]
  | _ => none

def lexFormat (pending : JsonPending) : Bytes → Option (List JsonTemplate)
  | [] => match pending with
      | .white => some []
      | _ => none
  | c :: format => match pending with
      | .white =>
          if c = 0x25 then lexFormat (.percent false) format
          else match JsonTemplate.ofSign (jsonSign c) with
            | some (templates, pending) => (lexFormat pending format).map (templates ++ ·)
            | none => if isPrimitiveChar c then lexFormat (.primitive [c]) format else none
      | .string text =>
          if c = 0x22 then (lexFormat .white format).map (.lexeme (.string text) :: ·)
          else if c = 0x25 ∧ text = [] then lexFormat (.percent true) format
          else if isPlain c then lexFormat (.string (text ++ [c])) format
          else none
      | .primitive text => match JsonTemplate.behind (.lexeme (.primitive text)) (jsonSign c) with
          | some templates => (lexFormat .white format).map (templates ++ ·)
          | none => if isPrimitiveChar c then lexFormat (.primitive (text ++ [c])) format else none
      | .percent quoted => lexFormat (.arg quoted) format
      | .arg true => if c = 0x22 then (lexFormat .white format).map (.string :: ·) else none
      | .arg false => (JsonTemplate.behind .primitive (jsonSign c)).bind fun templates =>
          (lexFormat .white format).map (templates ++ ·)

/-! ## Arguments -/

structure JsonPrimitive (text : Bytes) : Prop where
  first : ∃ c rest, text = c :: rest ∧ jsonSign c = .other
  chars : ∀ c ∈ text, PrimitiveChar c

/-- The templates, filled with arguments. -/
inductive JsonFills : List JsonTemplate → List Bytes → List JsonLexeme → Prop
  | nil : JsonFills [] [] []
  | lexeme {templates args lexemes} (lexeme : JsonLexeme) (rest : JsonFills templates args lexemes) :
      JsonFills (.lexeme lexeme :: templates) args (lexeme :: lexemes)
  | string {templates args lexemes} {arg : Bytes} (chars : JsonChars arg) (rest : JsonFills templates args lexemes) :
      JsonFills (.string :: templates) (arg :: args) (.string arg :: lexemes)
  | primitive {templates args lexemes} {arg : Bytes} (chars : JsonPrimitive arg)
      (rest : JsonFills templates args lexemes) :
      JsonFills (.primitive :: templates) (arg :: args) (.primitive arg :: lexemes)

theorem JsonChars.of_plain {text : Bytes} (plain : ∀ c ∈ text, isPlain c) : JsonChars text := by
  induction text with
  | nil => exact .nil
  | cons c text ih =>
      have first := plain c List.mem_cons_self
      simp only [isPlain, Bool.and_eq_true, decide_eq_true_eq] at first
      exact .symbol ⟨first.1.1.1, first.1.1.2, first.1.2⟩ (ih fun d mem => plain d (List.mem_cons_of_mem _ mem))

theorem PrimitiveChar.of_isPrimitiveChar {c : UInt8} (char : isPrimitiveChar c) : jsonSign c = .other ∧ PrimitiveChar c := by
  simp only [isPrimitiveChar, Bool.and_eq_true, decide_eq_true_eq] at char
  obtain ⟨⟨⟨other, above⟩, below⟩, -⟩ := char
  refine ⟨other, ?_, by rw [other]; rfl, above, below⟩
  rintro rfl
  revert above
  decide

theorem JsonPrimitive.written {text : Bytes} (primitive : JsonPrimitive text) :
    (JsonLexeme.primitive text).Written text := by
  obtain ⟨c, rest, rfl, other⟩ := primitive.first
  exact .primitive other primitive.chars

theorem JsonPrimitive.snoc {text : Bytes} (primitive : JsonPrimitive text) {c : UInt8} (char : isPrimitiveChar c) :
    JsonPrimitive (text ++ [c]) := by
  obtain ⟨first, rest, rfl, other⟩ := primitive.first
  refine ⟨⟨first, rest ++ [c], rfl, other⟩, fun d mem => ?_⟩
  rcases List.mem_append.mp mem with old | new
  · exact primitive.chars d old
  · obtain rfl := List.mem_singleton.mp new
    exact (PrimitiveChar.of_isPrimitiveChar char).2

theorem JsonPrimitive.of_chars {text : Bytes} (nonempty : text ≠ []) (chars : ∀ c ∈ text, isPrimitiveChar c) :
    JsonPrimitive text := by
  obtain ⟨c, rest, rfl⟩ := List.exists_cons_of_ne_nil nonempty
  exact ⟨⟨c, rest, rfl, (PrimitiveChar.of_isPrimitiveChar (chars c List.mem_cons_self)).1⟩,
    fun d mem => (PrimitiveChar.of_isPrimitiveChar (chars d mem)).2⟩

theorem JsonPrimitive.singleton {c : UInt8} (char : isPrimitiveChar c) : JsonPrimitive [c] :=
  .of_chars (List.cons_ne_nil _ _) (by simpa using char)

/-! ## What is printed -/

section
variable {templates : List JsonTemplate} {args : List Bytes} {lexemes more : List JsonLexeme} {text : Bytes}

def quotes (quoted : Bool) : Bytes := if quoted then [0x22] else []

/-- The lexemes of a format from some place in it on, and of what stands behind it. -/
def JsonPending.Reads (format : Bytes) (templates : List JsonTemplate) (more : List JsonLexeme) (text : Bytes) :
    JsonPending → Prop
  | .white => ∀ args lexemes, JsonFills templates args lexemes → JsonLexes (lexemes ++ more) (fprintf format args ++ text)
  | .string before => (∀ c ∈ before, isPlain c) → ∀ args lexemes, JsonFills templates args lexemes →
      JsonLexes (lexemes ++ more) (0x22 :: before ++ (fprintf format args ++ text))
  | .primitive before => JsonPrimitive before → ∀ args lexemes, JsonFills templates args lexemes →
      JsonLexes (lexemes ++ more) (before ++ (fprintf format args ++ text))
  | .percent quoted => ∀ args lexemes, JsonFills templates args lexemes →
      JsonLexes (lexemes ++ more) (quotes quoted ++ (fprintf (0x25 :: format) args ++ text))
  | .arg quoted => ∀ args' lexemes, JsonFills templates args' lexemes → ∃ arg args, args' = arg :: args ∧
      JsonLexes (lexemes ++ more) (quotes quoted ++ (arg ++ (fprintf format args ++ text)))

theorem fprintf_cons {c : UInt8} (other : c ≠ 0x25) (format : Bytes) (args : List Bytes) :
    fprintf (c :: format) args = c :: fprintf format args := by
  rw [fprintf.eq_def]
  exact if_neg other

theorem fprintf_arg (d : UInt8) (format arg : Bytes) (args : List Bytes) :
    fprintf (0x25 :: d :: format) (arg :: args) = arg ++ fprintf format args := by
  rw [fprintf.eq_def]
  exact if_pos rfl

theorem JsonLexes.string {inner : Bytes} (chars : JsonChars inner) (rest : JsonLexes lexemes text) :
    JsonLexes (.string inner :: lexemes) (0x22 :: inner ++ 0x22 :: text) := by
  have cons := JsonLexes.cons (.string chars) trivial rest
  rwa [List.cons_append, List.append_assoc, List.singleton_append] at cons

/-- A sign that stands between lexemes. -/
theorem JsonPending.Reads.sign {c : UInt8} {format : Bytes} {pending : JsonPending} {front : List JsonTemplate}
    (sign : JsonTemplate.ofSign (jsonSign c) = some (front, pending)) (other : c ≠ 0x25)
    (rest : pending.Reads format templates more text) : JsonPending.white.Reads (c :: format) (front ++ templates) more text := by
  intro args lexemes fills
  rw [fprintf_cons other, List.cons_append]
  cases kind : jsonSign c with
  | opens type =>
      rw [kind] at sign
      obtain ⟨container, rfl⟩ := jsonSign_reads kind
      cases sign
      cases fills with
      | lexeme _ fills => exact .cons (.opens container) trivial (rest _ _ fills)
  | closes type =>
      rw [kind] at sign
      obtain ⟨container, rfl⟩ := jsonSign_reads kind
      cases sign
      cases fills with
      | lexeme _ fills => exact .cons (.closes container) trivial (rest _ _ fills)
  | quote =>
      rw [kind] at sign
      obtain rfl := jsonSign_reads kind
      cases sign
      exact rest (by simp) _ _ fills
  | white =>
      rw [kind] at sign
      cases sign
      exact .white kind (rest _ _ fills)
  | colon =>
      rw [kind] at sign
      obtain rfl := jsonSign_reads kind
      cases sign
      cases fills with
      | lexeme _ fills => exact .cons .colon trivial (rest _ _ fills)
  | comma =>
      rw [kind] at sign
      obtain rfl := jsonSign_reads kind
      cases sign
      cases fills with
      | lexeme _ fills => exact .cons .comma trivial (rest _ _ fills)
  | other =>
      rw [kind] at sign
      cases sign

theorem JsonLexes.primitive {inner : Bytes} (primitive : JsonPrimitive inner) {c : UInt8}
    (ends : (jsonSign c).endsPrimitive) (rest : JsonLexes lexemes (c :: text)) :
    JsonLexes (.primitive inner :: lexemes) (inner ++ c :: text) := by
  refine .cons primitive.written ?_ rest
  intro d first
  obtain rfl := Option.some.inj first
  exact .inr ends

/-- Behind a primitive. -/
theorem JsonLexes.behind {template : JsonTemplate} {c : UInt8} {format : Bytes} {front : List JsonTemplate}
    (sign : template.behind (jsonSign c) = some front) (rest : JsonPending.white.Reads format templates more text)
    {inner : Bytes} (primitive : JsonPrimitive inner) {args' : List Bytes} {lexemes' : List JsonLexeme}
    (fills : JsonFills (front ++ templates) args' lexemes')
    (filled : ∀ templates lexemes', JsonFills (template :: templates) args' lexemes' →
      ∃ lexemes, lexemes' = .primitive inner :: lexemes ∧ JsonFills templates args lexemes) :
    JsonLexes (lexemes' ++ more) (inner ++ c :: (fprintf format args ++ text)) := by
  cases kind : jsonSign c with
  | white =>
      rw [kind] at sign
      cases sign
      obtain ⟨lexemes, rfl, filled'⟩ := filled _ _ fills
      exact .primitive primitive (by rw [kind]; rfl) (.white kind (rest _ _ filled'))
  | comma =>
      rw [kind] at sign
      cases sign
      obtain ⟨lexemes, rfl, filled'⟩ := filled _ _ fills
      obtain rfl := jsonSign_reads kind
      cases filled' with
      | lexeme _ filled' => exact .primitive primitive rfl (.cons .comma trivial (rest _ _ filled'))
  | _ =>
      rw [kind] at sign
      cases sign

theorem behind_ne_percent {template : JsonTemplate} {c : UInt8} {front : List JsonTemplate}
    (sign : template.behind (jsonSign c) = some front) : c ≠ 0x25 := by
  rintro rfl
  cases sign

theorem behind_eq_cons {template : JsonTemplate} {sign : JsonSign} {front : List JsonTemplate}
    (behind : template.behind sign = some front) : ∃ rest, front = template :: rest := by
  cases sign <;> cases behind <;> exact ⟨_, rfl⟩

/-- Whatever the arguments are, what is printed has the lexemes of the format. -/
theorem lexFormat_reads {pending : JsonPending} {format : Bytes} (lexed : lexFormat pending format = some templates)
    (after : JsonLexes more text) : pending.Reads format templates more text := by
  induction format generalizing pending templates with
  | nil =>
      cases pending with
      | white =>
          obtain rfl := Option.some.inj lexed
          rintro args lexemes ⟨⟩
          exact after
      | _ => cases lexed
  | cons c format ih =>
      cases pending with
      | white =>
          intro args lexemes fills
          simp only [lexFormat] at lexed
          split at lexed
          · subst c
            exact ih lexed args lexemes fills
          · split at lexed
            · rename_i other _ front pending sign
              obtain ⟨rest, lexed', rfl⟩ := Option.map_eq_some_iff.mp lexed
              exact (ih lexed').sign sign other args lexemes fills
            · split at lexed
              · rename_i other _ _ char
                rw [fprintf_cons other]
                exact ih lexed (.singleton char) _ _ fills
              · cases lexed
      | string before =>
          intro plain args lexemes fills
          simp only [lexFormat] at lexed
          split at lexed
          · subst c
            obtain ⟨rest, lexed', rfl⟩ := Option.map_eq_some_iff.mp lexed
            cases fills with
            | lexeme _ fills =>
                rw [fprintf_cons (by decide)]
                exact .string (.of_plain plain) (ih lexed' _ _ fills)
          · split at lexed
            · rename_i percent
              obtain ⟨rfl, rfl⟩ := percent
              exact ih lexed args lexemes fills
            · split at lexed
              · rename_i char
                have other : c ≠ 0x25 := by
                  rintro rfl
                  cases char
                rw [fprintf_cons other]
                have read := ih lexed (by simpa [or_imp, forall_and] using ⟨plain, char⟩) _ _ fills
                simpa using read
              · cases lexed
      | primitive before =>
          intro primitive args lexemes fills
          simp only [lexFormat] at lexed
          split at lexed
          · rename_i front sign
            obtain ⟨rest, lexed', rfl⟩ := Option.map_eq_some_iff.mp lexed
            rw [fprintf_cons (behind_ne_percent sign)]
            refine .behind sign (ih lexed') primitive fills ?_
            rintro templates _ (_ | ⟨_, fills⟩)
            exact ⟨_, rfl, fills⟩
          · split at lexed
            · rename_i char
              have other : c ≠ 0x25 := by
                rintro rfl
                cases char
              rw [fprintf_cons other]
              have read := ih lexed (primitive.snoc char) _ _ fills
              simpa using read
            · cases lexed
      | percent quoted =>
          intro args lexemes fills
          obtain ⟨arg, args, rfl, read⟩ := ih lexed args lexemes fills
          rw [fprintf_arg, List.append_assoc]
          exact read
      | arg quoted =>
          intro args lexemes fills
          cases quoted with
          | true =>
              simp only [lexFormat] at lexed
              split at lexed
              · subst c
                obtain ⟨rest, lexed', rfl⟩ := Option.map_eq_some_iff.mp lexed
                cases fills with
                | string chars fills =>
                    refine ⟨_, _, rfl, ?_⟩
                    rw [fprintf_cons (by decide)]
                    exact .string chars (ih lexed' _ _ fills)
              · cases lexed
          | false =>
              obtain ⟨front, sign, lexed⟩ := Option.bind_eq_some_iff.mp lexed
              obtain ⟨rest, lexed', rfl⟩ := Option.map_eq_some_iff.mp lexed
              obtain ⟨arg, args, rfl, primitive⟩ : ∃ arg args', args = arg :: args' ∧ JsonPrimitive arg := by
                obtain ⟨_, rfl⟩ := behind_eq_cons sign
                cases fills with
                | primitive chars => exact ⟨_, _, rfl, chars⟩
              refine ⟨arg, args, rfl, ?_⟩
              rw [fprintf_cons (behind_ne_percent sign)]
              refine .behind sign (ih lexed') primitive fills ?_
              rintro templates _ ⟨⟩
              exact ⟨_, rfl, ‹_›⟩

/-- How an argument is written where its value is left open. -/
def placeholder : Bytes := ascii "%s"

def JsonLexeme.template : JsonLexeme → JsonTemplate
  | .string text => if text = placeholder then .string else .lexeme (.string text)
  | .primitive text => if text = placeholder then .primitive else .lexeme (.primitive text)
  | lexeme => .lexeme lexeme

/-- Of a document with placeholders, lexeme by lexeme. -/
inductive JsonLexeme.Fills : List JsonLexeme → List Bytes → List JsonLexeme → Prop
  | nil : Fills [] [] []
  | sign {skeleton args lexemes} (lexeme : JsonLexeme) (sign : lexeme.template = .lexeme lexeme)
      (rest : Fills skeleton args lexemes) : Fills (lexeme :: skeleton) args (lexeme :: lexemes)
  | string {skeleton args lexemes} {arg : Bytes} (chars : JsonChars arg) (rest : Fills skeleton args lexemes) :
      Fills (.string placeholder :: skeleton) (arg :: args) (.string arg :: lexemes)
  | primitive {skeleton args lexemes} {arg : Bytes} (chars : JsonPrimitive arg) (rest : Fills skeleton args lexemes) :
      Fills (.primitive placeholder :: skeleton) (arg :: args) (.primitive arg :: lexemes)

theorem JsonLexeme.Fills.asTemplates {skeleton : List JsonLexeme} (fills : JsonLexeme.Fills skeleton args lexemes) :
    JsonFills (skeleton.map JsonLexeme.template) args lexemes := by
  induction fills with
  | nil => exact .nil
  | sign lexeme sign _ ih =>
      rw [List.map_cons, sign]
      exact .lexeme lexeme ih
  | string chars _ ih => exact .string chars ih
  | primitive chars _ ih => exact .primitive chars ih

theorem JsonLexeme.fills_sign {skeleton : List JsonLexeme} {lexeme : JsonLexeme}
    (sign : lexeme.template = .lexeme lexeme) :
    JsonLexeme.Fills (lexeme :: skeleton) args (lexeme :: lexemes) ↔ JsonLexeme.Fills skeleton args lexemes := by
  refine ⟨fun fills => ?_, .sign lexeme sign⟩
  cases fills with
  | sign _ _ rest => exact rest
  | string => cases sign
  | primitive => cases sign

theorem JsonLexeme.fills_string {skeleton : List JsonLexeme} {arg : Bytes} :
    JsonLexeme.Fills (.string placeholder :: skeleton) (arg :: args) (.string arg :: lexemes) ↔
      JsonChars arg ∧ JsonLexeme.Fills skeleton args lexemes := by
  refine ⟨fun fills => ?_, fun fills => .string fills.1 fills.2⟩
  cases fills with
  | sign _ sign => cases sign
  | string chars rest => exact ⟨chars, rest⟩

theorem JsonLexeme.fills_primitive {skeleton : List JsonLexeme} {arg : Bytes} :
    JsonLexeme.Fills (.primitive placeholder :: skeleton) (arg :: args) (.primitive arg :: lexemes) ↔
      JsonPrimitive arg ∧ JsonLexeme.Fills skeleton args lexemes := by
  refine ⟨fun fills => ?_, fun fills => .primitive fills.1 fills.2⟩
  cases fills with
  | sign _ sign => cases sign
  | primitive chars rest => exact ⟨chars, rest⟩

theorem JsonLexeme.fills_nil : JsonLexeme.Fills [] [] [] ↔ True := iff_true_intro .nil

/-- A format is checked against the lexemes it prints, with placeholders for the arguments. -/
theorem fprintf_lexes {format : Bytes} {skeleton : List JsonLexeme}
    (lexed : lexFormat .white format = some (skeleton.map JsonLexeme.template))
    (fills : JsonLexeme.Fills skeleton args lexemes) (after : JsonLexes more text) :
    JsonLexes (lexemes ++ more) (fprintf format args ++ text) :=
  lexFormat_reads lexed after args lexemes fills.asTemplates

end
end Ipfs
