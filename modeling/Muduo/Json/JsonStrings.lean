import Muduo.Json.JsonPath

/-! # Strings through the codec

A string is stored under a key of a fresh value, the object is printed, and the text is parsed into
another fresh value. The printer copies the bytes as they are; the parser ends a string at its first
quote and drops what `skipSpace` takes for blanks in front, where `char` is signed, so that every
byte from 128 on is a blank.

**`survives_iff`**: string and key come back exactly if they are `Clean`. -/

namespace Muduo

namespace Json

/-- `toStr()`. -/
def JsonValue.toStr (v : JsonValue) : Bytes := v.str

/-- The object that `insert(s, key)` makes of a fresh value. -/
def stored (key s : CString) : JsonValue := (JsonValue.new.insert (some (.string s.1)) [key.1]).2

/-- An object with `key` as its only key, and `s` under it. -/
def HasOnly (key s : CString) (v : JsonValue) : Prop :=
  v.type = .kHash ∧ ∃ e, v.elements = [e] ∧ e.key = key.1 ∧ e.type = .kString ∧ e.toStr = s.1

/-- The object with `s` under `key` is printed, and parsing the text into a fresh value gives such
an object. -/
def Survives (floatText : Bytes → Bytes) (key s : CString) : Prop :=
  ∃ out : CString, serialize floatText (stored key s) = some out.1 ∧
    ∃ n v, fromString n .new out = .ok v ∧ HasOnly key s v

variable {floatText : Bytes → Bytes} {key s : CString}

theorem stored_eq (key s : CString) : stored key s =
    { JsonValue.new with
      elements := [{ JsonValue.new with str := s.1, key := key.1, type := .kString }]
      type := .kHash } := rfl

/-- The text copies key and string. -/
theorem serialize_stored : serialize floatText (stored key s) =
    some ([LBRACE, LF, TAB, QUOTE] ++ key.1 ++ [QUOTE, COLON, QUOTE] ++ s.1 ++
      [QUOTE, LF, RBRACE]) := by
  rw [stored_eq, serialize, JsonValue.new, serilizeImpl]
  simp only [hashParts, loop_eq (by decide : 0 < 2 ^ 31), serilizeImpl, Option.map_some, tab,
    List.replicate_zero]
  simp [joined]

/-- What comes back is clean, as everything that the parser makes of a text. -/
theorem clean_of_hasOnly {n : ℕ} {out : CString} {v : JsonValue}
    (hparse : fromString n .new out = .ok v) (hv : HasOnly key s v) : Clean key.1 ∧ Clean s.1 := by
  obtain ⟨⟨t, v'⟩, hp, rfl⟩ := map_eq_ok.mp hparse
  obtain ⟨-, -, hparsed⟩ := (parsedAt n).object out.1 [] t v' out.2 hp
  obtain ⟨htype, e, helements, hkey, hetype, hstr⟩ := hv
  cases hparsed with
  | hash hclean hes =>
    obtain rfl : _ = [e] := helements
    refine ⟨hkey ▸ hclean e List.mem_cons_self, ?_⟩
    have he := hes e List.mem_cons_self
    cases he with
    | string hs => exact hstr ▸ hs
    | hash | array | int | float | bool | null => cases hetype
  | array | string | int | float | bool | null => cases htype

/-- A clean string comes back under a clean key. -/
theorem survives_of_clean (hkey : Clean key.1) (hs : Clean s.1) : Survives floatText key s := by
  have hparsed : Parsed (stored key s) := by
    rw [stored_eq]
    refine .hash (fun e he => ?_) fun e he => ?_
    · obtain rfl := List.mem_singleton.mp he
      exact hkey
    · obtain rfl := List.mem_singleton.mp he
      exact .string hs
  have hsolid : Solid (stored key s) := by
    rw [stored_eq]
    refine .intro nofun nofun nofun fun e he => ?_
    obtain rfl := List.mem_singleton.mp he
    exact .intro nofun nofun nofun nofun
  have hcounted : Counted (stored key s) := by
    rw [stored_eq]
    refine .intro (by simp) fun e he => ?_
    obtain rfl := List.mem_singleton.mp he
    exact .intro (Nat.zero_le _) nofun
  obtain ⟨d, hd⟩ : ∃ d, Prints floatText 0 (stored key s) d :=
    hparsed.exists_prints hsolid hcounted 0
  obtain ⟨N, hN⟩ := Doc.fromString_document hd.nullFree noSpace noSpace
  have htree : d.tree skipSpace [] = stored key s := hd.tree
  refine ⟨document noSpace d noSpace, ?_, N, stored key s, ?_, rfl, _, rfl, rfl, rfl, rfl⟩
  · rw [serialize, hd.text, document]
    simp [noSpace]
  · rw [← htree]
    exact hN N le_rfl

/-- **The strings and keys that survive** are those without a quote that do not begin with a blank:
a byte from 1 to 32, or from 128 on. -/
theorem survives_iff (floatText : Bytes → Bytes) (key s : CString) :
    Survives floatText key s ↔
      (QUOTE ∉ key.1 ∧ NoBlank key.1) ∧ QUOTE ∉ s.1 ∧ NoBlank s.1 := by
  constructor
  · rintro ⟨out, -, n, v, hparse, hv⟩
    obtain ⟨hkey, hs⟩ := clean_of_hasOnly hparse hv
    exact ⟨⟨hkey.noQuote, hkey.noBlank⟩, hs.noQuote, hs.noBlank⟩
  · rintro ⟨⟨hkey, hkey'⟩, hs, hs'⟩
    exact survives_of_clean ⟨hkey, key.2, hkey'⟩ ⟨hs, s.2, hs'⟩

/-- The key `message`. -/
def messageKey : CString := ⟨ascii "message", by decide⟩

/-- The first character of a UTF-8 message, three bytes from 128 on. -/
def utf8Message : CString := ⟨[231, 148, 168], by decide⟩

/-- What is printed of the object with the message. -/
def utf8Text : CString :=
  ⟨ascii "\x7b\n\t\"message\":\"" ++ utf8Message.1 ++ ascii "\"\n\x7d", by decide⟩

/-- **A UTF-8 message** is printed, and comes back empty. -/
theorem not_survives_utf8 : serialize id (stored messageKey utf8Message) = some utf8Text.1 ∧
    (∃ v, fromString 3 .new utf8Text = .ok v ∧ v.elements.map JsonValue.toStr = [[]]) ∧
    ¬ Survives id messageKey utf8Message := by
  have hread : (fromString 3 .new utf8Text).toOption.map (·.elements.map JsonValue.toStr) =
      some [[]] := by decide +kernel
  refine ⟨serialize_stored, ?_, ?_⟩
  · cases hparse : fromString 3 .new utf8Text with
    | error e =>
      rw [hparse] at hread
      cases hread
    | ok v =>
      rw [hparse] at hread
      exact ⟨v, rfl, Option.some.inj hread⟩
  · rintro ⟨out, -, n, v, hparse, hv⟩
    obtain ⟨-, hs⟩ := clean_of_hasOnly hparse hv
    exact absurd (hs.noBlank 231 rfl) (by decide)

end Json

end Muduo
