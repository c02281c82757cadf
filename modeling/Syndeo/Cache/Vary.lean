import Mathlib.Data.List.Sort
import Syndeo.Cache.Headers
import Syndeo.Data.Hex

/-!
# Secondary cache keys

A stored response records which request fields the origin said it varies on. A
new request selects that response only when those fields match, and the match is
on a digest of their values, `Syndeo.varyKey`: the *variant* the response was
stored as.
-/

namespace Syndeo

open Text

/-- `vary_fields`: the fields a response varies on, in lower case, each once and
in order; `*` stands for all of them and hides the others. -/
def varyFields (responseHeaders : HeaderMap) : List String :=
  let named := ((responseHeaders.getAll header.vary).filterMap HeaderValue.toStr).flatMap fun s =>
    ((s.toList.splitOn ',').map fun f =>
      toAsciiLowercase (String.ofList (trimChars f))).filter (· ≠ "")
  if "*" ∈ named then ["*"]
  else (named.foldl (fun fields f => if f ∈ fields then fields else fields ++ [f]) []).insertionSort
    (· ≤ ·)

/-- `varies_on_everything`: such a response is not storable at all. -/
def variesOnEverything (fields : List String) : Bool := fields.any fun f => f = "*"

/-- `ContentId::to_hex`. -/
def ContentId.toHex (id : ContentId) : String := String.ofList (hexDigits id.toNat 64)

/-- An address is read off its digits. -/
theorem ContentId.toHex_inj {a b : ContentId} (h : a.toHex = b.toHex) : a = b := by
  have hdigits := String.ofList_injective h
  exact BitVec.eq_of_toNat_eq (hexDigits_inj (by exact a.isLt) (by exact b.isLt) hdigits)

theorem ContentId.le_toNat_of_mem_toHex {a : ContentId} {c : Char} (h : c ∈ a.toHex.toList) :
    48 ≤ c.toNat := by
  rw [ContentId.toHex, String.toList_ofList] at h
  exact le_toNat_of_mem_hexDigits h

/-- The selecting field values of a request, in the order of the field list. -/
def varyParts (fields : List String) (requestHeaders : HeaderMap) : List String :=
  fields.map fun field =>
    let values := match HeaderName.fromBytes field with
      | some n => (requestHeaders.getAll n).filterMap HeaderValue.toStr
      | none => []
    field ++ "=" ++ String.intercalate ", " values

/-- `vary_key`: the secondary key, which is half a digest of the selecting field
values. -/
def varyKey (P : Platform) (fields : List String) (requestHeaders : HeaderMap) : String :=
  match fields with
  | [] => ""
  | _ =>
    let joined := String.intercalate "\x01" (varyParts fields requestHeaders)
    String.ofList (hexDigits ((P.blake3 joined.toUTF8.data.toList).toNat / 2 ^ 128) 32)

end Syndeo
