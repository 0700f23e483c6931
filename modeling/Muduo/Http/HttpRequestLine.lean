import Muduo.Http.HttpHead

/-! # The request line

`parseRequestLine` reads a method, a target and a version, with one space after the first two. A
`RequestLine` is such a line, with a space neither in the target nor after the version, and
`RequestLine.fill` is what the parser stores of it.

The methods that the parser knows are those of `kMethodStrings`, and one of them is the name of
`kInvalid`. `readsGrammar_iff` says that nothing else is wrong with the request lines that are
accepted. -/

namespace Muduo

namespace Http

/-- A method, a target and a version, as the parser reads them. -/
structure RequestLine where
  /-- The method. -/
  method : Method
  /-- Path and query. -/
  target : Bytes
  /-- The version. -/
  version : Version
  /-- The target ends at the first space. -/
  target_clean : SP ∉ target
  /-- The version is one of the two that are defined. -/
  version_known : version ≠ .kUnkown

namespace RequestLine

/-- The line as it is sent, without its `CRLF`. -/
def text (l : RequestLine) : Bytes := l.method.text ++ SP :: (l.target ++ SP :: l.version.text)

/-- The target up to the first `?`. -/
def path (l : RequestLine) : Bytes := l.target.takeWhile (· ≠ QUESTION)

/-- The target after the first `?`. -/
def query (l : RequestLine) : Bytes := (l.target.dropWhile (· ≠ QUESTION)).drop 1

/-- What the line stores in a request. Without a `?` the query is left as it is. -/
def fill (l : RequestLine) (q : HttpRequest) : HttpRequest :=
  { q with
    method := l.method
    version := l.version
    path := l.path
    query := if QUESTION ∈ l.target then l.query else q.query }

end RequestLine

/-! ## What the parser reads -/

/-- Without a `?` the target is the path. -/
theorem RequestLine.fill_of_none (l : RequestLine) (q : HttpRequest)
    (h : Delimiter.cut QUESTION l.target = none) :
    l.fill q = ({ q with method := l.method }.setPath l.target).setVersion l.version := by
  have hnone := Delimiter.notMem_of_cut h
  have hpath : l.path = l.target := by
    refine List.takeWhile_eq_self_iff.mpr fun c hc => decide_eq_true ?_
    rintro rfl
    exact hnone hc
  rw [fill, if_neg hnone, hpath]
  rfl

/-- A `?` cuts the target into path and query. -/
theorem RequestLine.fill_of_some (l : RequestLine) (q : HttpRequest) {path query : Bytes}
    (h : Delimiter.cut QUESTION l.target = some (path, query)) :
    l.fill q =
      (({ q with method := l.method }.setPath path).setQuery query).setVersion l.version := by
  obtain ⟨ht, hp⟩ := Delimiter.cut_eq_some.mp h
  have hmem : QUESTION ∈ l.target := ht ▸ List.mem_append_right _ List.mem_cons_self
  have hall : ∀ c ∈ path, decide (c ≠ QUESTION) = true := by
    refine fun c hc => decide_eq_true ?_
    rintro rfl
    exact hp hc
  have hpath : l.path = path := by
    rw [RequestLine.path, ht, List.takeWhile_append_of_pos hall]
    simp
  have hquery : l.query = query := by
    rw [RequestLine.query, ht, List.dropWhile_append_of_pos hall]
    simp
  rw [fill, if_pos hmem, hpath, hquery]
  rfl

/-- The texts of the methods are the names that `setMethod` knows. -/
theorem mem_kMethodStrings {s : Bytes} : s ∈ kMethodStrings ↔ ∃ m : Method, s = m.text := by
  constructor
  · intro h
    rw [kMethodStrings] at h
    simp only [List.mem_cons, List.not_mem_nil, or_false] at h
    rcases h with h | h | h | h
    · exact ⟨.kGet, h⟩
    · exact ⟨.kPost, h⟩
    · exact ⟨.kHead, h⟩
    · exact ⟨.kInvalid, h⟩
  · rintro ⟨m, rfl⟩
    cases m <;> simp [kMethodStrings, Method.text]

theorem setMethod_eq_true {q r : HttpRequest} {s : Bytes} :
    q.setMethod s = (r, true) ↔ ∃ m : Method, s = m.text ∧ r = { q with method := m } := by
  constructor
  · intro h
    obtain ⟨m, rfl⟩ := mem_kMethodStrings.mp ((q.setMethod_accepts s).mp (congrArg Prod.snd h))
    rw [RequestHead.setMethod_text] at h
    exact ⟨m, rfl, (congrArg Prod.fst h).symm⟩
  · rintro ⟨m, rfl, rfl⟩
    exact RequestHead.setMethod_text q m

/-- The version is accepted if it is the text of one that is defined. -/
theorem parseVersion_eq_true {q r : HttpRequest} {s : Bytes} :
    parseVersion q s = (r, true) ↔
      ∃ v : Version, v ≠ .kUnkown ∧ s = v.text ∧ r = q.setVersion v := by
  constructor
  · intro h
    rw [parseVersion] at h
    by_cases hs : s.length = 8 ∧ s.take 7 = ascii "HTTP/1."
    · rw [if_pos hs] at h
      -- seven bytes are known, and the last one decides
      obtain ⟨c, hc⟩ : ∃ c, s.drop 7 = [c] := List.length_eq_one_iff.mp (by simp [hs.1])
      obtain rfl : s = ascii "HTTP/1." ++ [c] := by
        rw [← hs.2, ← hc, List.take_append_drop]
      rw [List.getLastD_concat] at h
      by_cases h0 : c = 48
      · rw [if_pos h0] at h
        exact ⟨.kHttp10, nofun, by rw [h0]; rfl, (congrArg Prod.fst h).symm⟩
      · rw [if_neg h0] at h
        by_cases h1 : c = 49
        · rw [if_pos h1] at h
          exact ⟨.kHttp11, nofun, by rw [h1]; rfl, (congrArg Prod.fst h).symm⟩
        · rw [if_neg h1] at h
          cases congrArg Prod.snd h
    · rw [if_neg hs] at h
      cases congrArg Prod.snd h
  · rintro ⟨v, hv, rfl, rfl⟩
    exact RequestHead.parseVersion_text q hv

theorem sp_notMem_text (m : Method) : SP ∉ m.text := by
  cases m <;> decide

/-- **The parser accepts the request lines**, and stores what they say. -/
theorem parseRequestLine_eq_true {q r : HttpRequest} {line : Bytes} :
    parseRequestLine q line = (r, true) ↔ ∃ l : RequestLine, l.text = line ∧ r = l.fill q := by
  constructor
  · intro h
    rw [parseRequestLine] at h
    rcases hm : Delimiter.cut SP line with _ | ⟨method, rest⟩
    · simp [hm] at h
    rcases hset : q.setMethod method with ⟨q', _ | _⟩
    · simp [hm, hset] at h
    rcases ht : Delimiter.cut SP rest with _ | ⟨target, version⟩
    · simp [hm, hset, ht] at h
    obtain ⟨m, rfl, rfl⟩ := setMethod_eq_true.mp hset
    obtain ⟨rfl, -⟩ := Delimiter.cut_eq_some.mp hm
    obtain ⟨rfl, hsp⟩ := Delimiter.cut_eq_some.mp ht
    simp only [hm, hset, ht] at h
    rcases hq : Delimiter.cut QUESTION target with _ | ⟨path, query⟩
    · simp only [hq] at h
      obtain ⟨v, hv, rfl, rfl⟩ := parseVersion_eq_true.mp h
      exact ⟨_, rfl, (RequestLine.fill_of_none ⟨m, target, v, hsp, hv⟩ q hq).symm⟩
    · simp only [hq] at h
      obtain ⟨v, hv, rfl, rfl⟩ := parseVersion_eq_true.mp h
      exact ⟨_, rfl, (RequestLine.fill_of_some ⟨m, target, v, hsp, hv⟩ q hq).symm⟩
  · rintro ⟨⟨m, target, v, hsp, hv⟩, rfl, rfl⟩
    rw [parseRequestLine, RequestLine.text, Delimiter.cut_append (sp_notMem_text m)]
    simp only [RequestHead.setMethod_text, Delimiter.cut_append hsp]
    rcases hq : Delimiter.cut QUESTION target with _ | ⟨path, query⟩
    · simp only [RequestHead.parseVersion_text _ hv]
      exact congrArg (·, true) (RequestLine.fill_of_none ⟨m, target, v, hsp, hv⟩ q hq).symm
    · simp only [RequestHead.parseVersion_text _ hv]
      exact congrArg (·, true) (RequestLine.fill_of_some ⟨m, target, v, hsp, hv⟩ q hq).symm

/-! ## The grammar -/

/-- The line is in the grammar: `METHOD SP target SP version`, with one of the three methods. -/
def InGrammar (line : Bytes) : Prop := ∃ l : RequestLine, l.method ≠ .kInvalid ∧ l.text = line

/-- A fresh request takes the lines of the grammar and no others, it has a method then, and what it
stores is what the line says. -/
structure ReadsGrammar (line : Bytes) : Prop where
  accepts : (parseRequestLine .new line).2 = true ↔ InGrammar line
  method : (parseRequestLine .new line).2 = true → (parseRequestLine .new line).1.method ≠ .kInvalid
  stores : ∀ l : RequestLine, l.method ≠ .kInvalid → l.text = line →
    (parseRequestLine .new line).1 =
      ⟨l.method, l.version, l.path, ∅, if QUESTION ∈ l.target then l.query else [], []⟩

/-- The line names the method that stands for none. -/
def NamesInvalid (line : Bytes) : Prop := ∃ l : RequestLine, l.method = .kInvalid ∧ l.text = line

/-- The method `INVALID` is accepted, and `method()` is `kInvalid` then. -/
theorem NamesInvalid.not_readsGrammar {line : Bytes} (h : NamesInvalid line) :
    ¬ReadsGrammar line := by
  obtain ⟨l, hl, htext⟩ := h
  rintro ⟨-, hmethod, -⟩
  have h : parseRequestLine .new line = (l.fill .new, true) :=
    parseRequestLine_eq_true.mpr ⟨l, htext, rfl⟩
  rw [h] at hmethod
  exact hmethod rfl hl

/-- **The request line parser accepts its grammar**, except for the lines with the method
`INVALID`, which it accepts as well. -/
theorem readsGrammar_iff (line : Bytes) : ReadsGrammar line ↔ ¬NamesInvalid line := by
  constructor
  · exact fun h hinvalid => hinvalid.not_readsGrammar h
  · intro hnot
    have hknown (l : RequestLine) (htext : l.text = line) : l.method ≠ .kInvalid :=
      fun hl => hnot ⟨l, hl, htext⟩
    have hread (h : (parseRequestLine .new line).2 = true) : ∃ l : RequestLine,
        l.text = line ∧ (parseRequestLine .new line).1 = l.fill .new :=
      parseRequestLine_eq_true.mp (Prod.ext rfl h)
    refine ⟨⟨fun h => ?_, fun ⟨l, _, htext⟩ => ?_⟩, fun h => ?_, fun l _ htext => ?_⟩
    · obtain ⟨l, htext, -⟩ := hread h
      exact ⟨l, hknown l htext, htext⟩
    · rw [parseRequestLine_eq_true.mpr ⟨l, htext, rfl⟩]
    · obtain ⟨l, htext, hr⟩ := hread h
      rw [hr]
      exact hknown l htext
    · rw [parseRequestLine_eq_true.mpr ⟨l, htext, rfl⟩]
      rfl

/-- `INVALID / HTTP/1.1`. -/
def invalidLine : RequestLine := ⟨.kInvalid, ascii "/", .kHttp11, by decide, nofun⟩

/-- **`INVALID` is accepted as a method.** -/
theorem not_readsGrammar_invalidLine :
    ¬∀ line : Bytes, ¬[CR, LF] <:+: line → ReadsGrammar line := by
  intro hall
  have hclean : ¬[CR, LF] <:+: invalidLine.text := by decide +kernel
  exact NamesInvalid.not_readsGrammar ⟨invalidLine, rfl, rfl⟩ (hall _ hclean)

end Http

end Muduo
