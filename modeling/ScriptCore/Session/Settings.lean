import ScriptCore.Footprint.Context
import ScriptCore.Json.Syntax
import ScriptCore.Numeral.Layout

/-!
# ScriptCore.Session.Settings

The **settings** of a session, and how they are read from a document.

Design points:

* A record is read from an object by the names of its fields, or from an array by their order. What
  is missing has its default, where there is one; a field given twice is an error, and unknown fields
  are passed over.
* A rate limit is checked only after the whole document has been read.
-/

namespace ScriptCore

/-- The parameters of a token bucket. -/
structure RateLimit where
  /-- Ticks per second. -/
  rate : Binary64
  /-- The capacity. -/
  burst : Nat

/-- The settings of a session. -/
structure Settings where
  /-- The limits of memory estimates. -/
  limits : Limits
  /-- The rate limit; without one there is no throttling. -/
  rateLimit : Option RateLimit

/-- The usual settings. -/
def Settings.default : Settings := ⟨.default, none⟩

/-- Why settings are not accepted. -/
inductive SettingsError where
  /-- The document is not well-formed, or does not hold settings. -/
  | malformed
  /-- The rate is negative or no number, or the capacity is zero. -/
  | invalidRateLimit (limit : RateLimit)

/-- The name of the cause. -/
def SettingsError.name : SettingsError → String
  | .malformed => "Json"
  | .invalidRateLimit _ => "InvalidRateLimit"

/-- The wording of an error. What is wrong with a document is not said. -/
def SettingsError.message : SettingsError → String
  | .malformed => ""
  | .invalidRateLimit limit =>
    "invalid rate limit: rate " ++ Layout.plain.write limit.rate ++ ", burst " ++
      toString limit.burst

/-- The rate limit describes a bucket that can fill. -/
def RateLimit.isValid (l : RateLimit) : Bool :=
  (Binary64.zero false).le l.rate && l.burst != 0

/-- Accepts a rate limit that describes a bucket that can fill. -/
def RateLimit.check (l : RateLimit) : Except SettingsError Unit :=
  if l.isValid then .ok () else .error (.invalidRateLimit l)

/-! ### Reading -/

namespace Json

/-- The fields of a record, in the order of their names. Each has the value given for it, if any;
nothing if the document holds no such record. -/
def fields? (names : List String) : Json → Option (List (Option Json))
  | .array items =>
    if items.length ≤ names.length then
      some (items.map some ++ List.replicate (names.length - items.length) none)
    else none
  | .object members =>
    if members.all fun m => Utf16.isWellFormed m.1 then
      names.mapM fun name =>
        match members.filter fun m => m.1 == Utf16.encode name.toList with
        | [] => some none
        | [m] => some (some m.2)
        | _ => none
    else none
  | _ => none

/-- A natural number that fits into a word. -/
def toNat? : Json → Option Nat
  | .number n => n.toNat?
  | _ => none

/-- A double-precision number. -/
def toBinary64? : Json → Option Binary64
  | .number n => n.toBinary64?
  | _ => none

/-- A field that has a default. -/
def fieldOr? {α : Type} (read : Json → Option α) (otherwise : α) : Option Json → Option α
  | some j => read j
  | none => some otherwise

end Json

/-- Reads limits; what is missing is as usual. -/
def Limits.ofJson? (j : Json) : Option Limits := do
  let d := Limits.default
  match ← j.fields? ["max_depth", "mem_limit", "array_len_threshold", "obj_props_len_threshold",
      "sample_rate"] with
  | [depth, memory, array, entries, rate] =>
    return ⟨← Json.fieldOr? Json.toNat? d.maxDepth depth,
      ← Json.fieldOr? Json.toNat? d.memLimit memory,
      ← Json.fieldOr? Json.toNat? d.arrayThreshold array,
      ← Json.fieldOr? Json.toNat? d.entriesThreshold entries,
      ← Json.fieldOr? Json.toBinary64? d.sampleRate rate⟩
  | _ => none

/-- Reads a rate limit; both parts are needed. -/
def RateLimit.ofJson? (j : Json) : Option RateLimit := do
  match ← j.fields? ["rate_per_sec", "burst"] with
  | [some rate, some burst] => return ⟨← rate.toBinary64?, ← burst.toNat?⟩
  | _ => none

/-- Reads a rate limit or the null value, which means that there is none. -/
def RateLimit.ofNullable? : Json → Option (Option RateLimit)
  | .null => some none
  | j => (RateLimit.ofJson? j).map some

namespace Settings

/-- Reads settings; what is missing is as usual. -/
def ofJson? (j : Json) : Option Settings := do
  match ← j.fields? ["mem_usage", "rate_limit"] with
  | [limits, rateLimit] =>
    return ⟨← Json.fieldOr? Limits.ofJson? .default limits,
      ← Json.fieldOr? RateLimit.ofNullable? none rateLimit⟩
  | _ => none

/-- Accepts settings whose rate limit, if any, describes a bucket that can fill. -/
def check (s : Settings) : Except SettingsError Settings :=
  match s.rateLimit with
  | some l => l.check.map fun _ => s
  | none => .ok s

/-- Reads settings from the text of a document. -/
def read (text : String) : Except SettingsError Settings :=
  match (Json.read? text).bind ofJson? with
  | some s => s.check
  | none => .error .malformed

end Settings

end ScriptCore
