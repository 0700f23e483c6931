import Muduo.Net.Buffer
import Mathlib.Data.List.DropRight
import Std.Data.ExtTreeMap

/-! # `HttpRequest`

The request that `HttpContext` fills in, `muduo/net/http/HttpRequest.h`: method, version, path,
query, header map and body, with the setters of the class. The header map is an ordered map from
byte strings to byte strings, as `std::map<std::string, std::string>` is. -/

namespace Muduo

namespace Http

/-- `HttpRequest::Version`. -/
inductive Version
  | kHttp10
  | kHttp11
  | kUnkown
deriving DecidableEq, Repr

/-- `HttpRequest::Method`. -/
inductive Method
  | kGet
  | kPost
  | kHead
  | kInvalid
deriving DecidableEq, Repr

/-- `(Method)i`, for the indices of `kMethodStrings`. -/
def Method.ofIndex : ℕ → Method
  | 0 => .kGet
  | 1 => .kPost
  | 2 => .kHead
  | _ => .kInvalid

/-- `HttpRequest::kMethodStrings`. -/
def kMethodStrings : List Bytes := [ascii "GET", ascii "POST", ascii "HEAD", ascii "INVALID"]

/-- `std::map<std::string, std::string>`. -/
abbrev HeaderMap := Std.ExtTreeMap Bytes Bytes compare

/-- `trim(s)`: spaces are dropped at both ends. -/
def trim (s : Bytes) : Bytes := (s.dropWhile (· == SP)).rdropWhile (· == SP)

/-- What `addHeader` does with a key and with a value. -/
def normalize (s : Bytes) : Bytes := (trim s).map tolower

/-- `HttpRequest`. -/
structure HttpRequest where
  /-- `method_`. -/
  method : Method
  /-- `version_`. -/
  version : Version
  /-- `path_`. -/
  path : Bytes
  /-- `header_`. -/
  header : HeaderMap
  /-- `query_`. -/
  query : Bytes
  /-- `body_`. -/
  body : Bytes

namespace HttpRequest

/-- `HttpRequest()`. -/
def new : HttpRequest := ⟨.kInvalid, .kUnkown, [], ∅, [], []⟩

/-- `setVersion(v)`. -/
def setVersion (r : HttpRequest) (v : Version) : HttpRequest := { r with version := v }

/-- `setMethod(begin, end)`: the loop over `kMethodStrings`. -/
def setMethod (r : HttpRequest) (method : Bytes) : HttpRequest × Bool :=
  match kMethodStrings.findIdx? (method == ·) with
  | some i => ({ r with method := .ofIndex i }, true)
  | none => ({ r with method := .kInvalid }, false)

/-- `setPath(begin, end)`. -/
def setPath (r : HttpRequest) (path : Bytes) : HttpRequest := { r with path := path }

/-- `setQuery(begin, end)`. -/
def setQuery (r : HttpRequest) (query : Bytes) : HttpRequest := { r with query := query }

/-- `addHeader(begin, colon, end)`, given the bytes before and after the colon. -/
def addHeader (r : HttpRequest) (k v : Bytes) : HttpRequest :=
  { r with header := r.header.insert (normalize k) (normalize v) }

/-- `getHeader(k)`. -/
def getHeader (r : HttpRequest) (k : Bytes) : Bytes := r.header.getD k []

/-- `setBody(begin, end)`. -/
def setBody (r : HttpRequest) (body : Bytes) : HttpRequest := { r with body := body }

/-- `swap(that)`, which exchanges every field but `body_`. -/
def swap (r that : HttpRequest) : HttpRequest × HttpRequest :=
  ({ that with body := r.body }, { r with body := that.body })

/-! ## What the setters write -/

/-- The method is the one whose name is given. -/
theorem method_setMethod (r : HttpRequest) (m : Bytes) :
    (r.setMethod m).1.method =
      if m = ascii "GET" then .kGet else if m = ascii "POST" then .kPost
      else if m = ascii "HEAD" then .kHead else .kInvalid := by
  rw [setMethod, kMethodStrings]
  by_cases hg : m = ascii "GET"
  · simp [hg, List.findIdx?_cons, Method.ofIndex]
  by_cases hp : m = ascii "POST"
  · rw [hp]; rfl
  by_cases hh : m = ascii "HEAD"
  · rw [hh]; rfl
  by_cases hi : m = ascii "INVALID"
  · rw [hi]; rfl
  · simp [hg, hp, hh, hi, List.findIdx?_cons]

/-- `setMethod` accepts the listed names. -/
theorem setMethod_accepts (r : HttpRequest) (m : Bytes) :
    (r.setMethod m).2 = true ↔ m ∈ kMethodStrings := by
  rw [setMethod]
  cases h : kMethodStrings.findIdx? (m == ·) with
  | none =>
    have := List.findIdx?_eq_none_iff.mp h
    simp only [Bool.false_eq_true, false_iff]
    intro hm
    simpa using this m hm
  | some i =>
    obtain ⟨hi, hm, -⟩ := List.findIdx?_eq_some_iff_getElem.mp h
    simp only [true_iff]
    rw [beq_iff_eq] at hm
    exact hm ▸ List.getElem_mem hi

/-- The header added last is the one found. -/
theorem getHeader_addHeader (r : HttpRequest) (k v k' : Bytes) :
    (r.addHeader k v).getHeader k' = if normalize k = k' then normalize v else r.getHeader k' := by
  simp [getHeader, addHeader, Std.ExtTreeMap.getD_insert]

end HttpRequest

end Http

end Muduo
