import Mathlib.Tactic

/-!
# Python values, exceptions and their text

The values an event or a decoded record is made of, the exceptions the code
raises and catches on them, and the text the code takes of both (`repr`, `str`,
`json.dumps`). Strings are sequences of Unicode scalars: no lone surrogates.

`Host` is what the code uses and this repository does not hold: the Unicode
table behind `str.isprintable` and pydantic's datetime parser and error text.
-/

namespace BlueskyTrends

/-- A datetime: its wall clock in microseconds from 1970-01-01T00:00:00, and its
offset from UTC in microseconds (`none` for a naive datetime). -/
structure DateTime where
  wall : ℤ
  utcoffset : Option ℤ
  deriving DecidableEq

/-- A Python value (`null` is `None`). A float is given by its `repr`, a dict by its
items in order. -/
inductive Val where
  | null
  | bool (b : Bool)
  | int (n : ℤ)
  | float (repr : String)
  | str (s : String)
  | list (xs : List Val)
  | dict (items : List (String × Val))
  | datetime (t : DateTime)

/-! ## Text -/

def apostrophe : Char := Char.ofNat 39
def quotation : Char := Char.ofNat 34
def backslash : Char := Char.ofNat 92

/-- `n` in base `b`, padded with zeros to `width` digits. -/
def padDigits (b width n : ℕ) : String :=
  let ds := String.ofList (Nat.toDigits b n)
  String.ofList (List.replicate (width - ds.length) '0') ++ ds

/-- The year, month and day of a day number (days from 1970-01-01, Gregorian). -/
def civil (day : ℤ) : ℤ × ℤ × ℤ :=
  -- eras of 400 years counted from March, so that the leap day ends its year
  let z := day + 719468
  let era := z / 146097
  let doe := z % 146097
  let yoe := (doe - doe / 1460 + doe / 36524 - doe / 146096) / 365
  let doy := doe - (365 * yoe + yoe / 4 - yoe / 100)
  let mp := (5 * doy + 2) / 153
  let m := if mp < 10 then mp + 3 else mp - 9
  (yoe + era * 400 + (if m ≤ 2 then 1 else 0), m, doy - (153 * mp + 2) / 5 + 1)

/-- `HH:MM`, with `:SS` and `.ffffff` when `full` or not zero, of a time of day in microseconds. -/
def clockText (full : Bool) (us : ℤ) : String :=
  let d2 (n : ℤ) := padDigits 10 2 n.toNat
  let s := us / 1000000
  let hm := d2 (s / 3600) ++ ":" ++ d2 (s / 60 % 60)
  let sec := if full || s % 60 ≠ 0 || us % 1000000 ≠ 0 then ":" ++ d2 (s % 60) else ""
  hm ++ sec ++ (if us % 1000000 ≠ 0 then "." ++ padDigits 10 6 (us % 1000000).toNat else "")

/-- `str` of a datetime: `isoformat` with a space. -/
def DateTime.toStr (t : DateTime) : String :=
  let (y, m, d) := civil (t.wall / 86400000000)
  let date := padDigits 10 4 y.toNat ++ "-" ++ padDigits 10 2 m.toNat ++ "-" ++ padDigits 10 2 d.toNat
  let zone := match t.utcoffset with
    | none => ""
    | some o => (if o < 0 then "-" else "+") ++ clockText false o.natAbs
  date ++ " " ++ clockText true (t.wall % 86400000000) ++ zone

/-- `repr` of a datetime: its constructor call, trailing zero fields left out. -/
def DateTime.toRepr (t : DateTime) : String :=
  let (y, m, d) := civil (t.wall / 86400000000)
  let us := t.wall % 86400000000
  let s := us / 1000000
  let frac := us % 1000000
  let tail := if frac ≠ 0 then [s % 60, frac] else if s % 60 ≠ 0 then [s % 60] else []
  let zone := match t.utcoffset with
    | none => []
    | some 0 => ["tzinfo=datetime.timezone.utc"]
    | some o =>
      let days := if o < 0 then ["days=-1"] else []
      ["tzinfo=datetime.timezone(datetime.timedelta(" ++
        ", ".intercalate (days ++ ["seconds=" ++ toString (o / 1000000 % 86400)]) ++ "))"]
  "datetime.datetime(" ++
    ", ".intercalate (([y, m, d, s / 3600, s / 60 % 60] ++ tail).map toString ++ zone) ++ ")"

/-- `round(x, n)` of the exact value: the nearest multiple of `10 ** -n`, of two the even one. The code rounds the
nearest float, which may fall on the other side of a tie. -/
def roundTo (n : ℕ) (x : ℚ) : ℚ :=
  let k := (x * 10 ^ n).floor
  let d := x * 10 ^ n - k
  (if d < 1 / 2 ∨ d = 1 / 2 ∧ k % 2 = 0 then k else k + 1) / 10 ^ n

/-- What the code takes from outside this repository. -/
structure Host where
  /-- `str.isprintable`, for one character. -/
  isprintable : Char → Bool
  /-- pydantic's lax datetime validator, for a value that is not a datetime already. -/
  parseDatetime : Val → Option DateTime
  /-- The text of a `ValidationError`: the model's name and the input it rejected. -/
  validationText : String → List (String × Val) → String

/-- A host that knows ASCII text and one timestamp, for concrete events. -/
def asciiHost : Host where
  isprintable _ := false
  parseDatetime
    | .str "2024-01-01T00:00:00.000Z" => some ⟨1704067200000000, some 0⟩
    | _ => none
  validationText model _ := "1 validation error for " ++ model

/-- One character of a string's `repr`, in quotes `q`. -/
def Host.reprChar (H : Host) (q c : Char) : String :=
  if c = q || c = backslash then String.ofList [backslash, c]
  else if c = '\n' then String.ofList [backslash, 'n']
  else if c = '\r' then String.ofList [backslash, 'r']
  else if c = '\t' then String.ofList [backslash, 't']
  else if (c.toNat < 127 && 32 ≤ c.toNat) || (127 < c.toNat && H.isprintable c) then c.toString
  else if c.toNat < 256 then String.ofList [backslash, 'x'] ++ padDigits 16 2 c.toNat
  else if c.toNat < 65536 then String.ofList [backslash, 'u'] ++ padDigits 16 4 c.toNat
  else String.ofList [backslash, 'U'] ++ padDigits 16 8 c.toNat

/-- `repr` of a string: apostrophes around it, unless it holds one and no quotation mark. -/
def Host.reprStr (H : Host) (s : String) : String :=
  let q := if apostrophe ∈ s.toList ∧ quotation ∉ s.toList then quotation else apostrophe
  String.ofList [q] ++ String.join (s.toList.map (H.reprChar q)) ++ String.ofList [q]

mutual

/-- `repr`. -/
def Host.repr (H : Host) : Val → String
  | .null => "None"
  | .bool b => if b then "True" else "False"
  | .int n => toString n
  | .float r => r
  | .str s => H.reprStr s
  | .list xs => "[" ++ ", ".intercalate (H.reprList xs) ++ "]"
  | .dict items => "\x7b" ++ ", ".intercalate (H.reprItems items) ++ "\x7d"
  | .datetime t => t.toRepr

def Host.reprList (H : Host) : List Val → List String
  | [] => []
  | x :: xs => H.repr x :: H.reprList xs

def Host.reprItems (H : Host) : List (String × Val) → List String
  | [] => []
  | (k, x) :: xs => (H.reprStr k ++ ": " ++ H.repr x) :: H.reprItems xs

end

/-- `str`. -/
def Host.str (H : Host) : Val → String
  | .str s => s
  | .datetime t => t.toStr
  | v => H.repr v

/-- One character inside a JSON string, as `json.dumps` writes it (ASCII only). -/
def dumpsChar (c : Char) : String :=
  let u (n : ℕ) := String.ofList [backslash, 'u'] ++ padDigits 16 4 n
  if c = quotation || c = backslash then String.ofList [backslash, c]
  else if c = '\n' then String.ofList [backslash, 'n']
  else if c = '\r' then String.ofList [backslash, 'r']
  else if c = '\t' then String.ofList [backslash, 't']
  else if c.toNat = 8 then String.ofList [backslash, 'b']
  else if c.toNat = 12 then String.ofList [backslash, 'f']
  else if 32 ≤ c.toNat && c.toNat ≤ 126 then c.toString
  -- beyond the basic plane: a surrogate pair
  else if c.toNat < 65536 then u c.toNat
  else u (55296 + (c.toNat - 65536) / 1024) ++ u (56320 + (c.toNat - 65536) % 1024)

def dumpsStr (s : String) : String :=
  String.ofList [quotation] ++ String.join (s.toList.map dumpsChar) ++ String.ofList [quotation]

mutual

/-- `json.dumps(v, sort_keys=True, separators=(",", ":"), default=str)`. -/
def Val.dumps : Val → String
  | .null => "null"
  | .bool b => if b then "true" else "false"
  | .int n => toString n
  -- the non-finite floats have names of their own in JSON text
  | .float r => if r = "nan" then "NaN" else if r = "inf" then "Infinity"
      else if r = "-inf" then "-Infinity" else r
  | .str s => dumpsStr s
  | .list xs => "[" ++ ",".intercalate (dumpsList xs) ++ "]"
  | .dict items =>
      let sorted := (dumpsItems items).insertionSort fun a b => a.1 ≤ b.1
      "\x7b" ++ ",".intercalate (sorted.map fun p => dumpsStr p.1 ++ ":" ++ p.2) ++ "\x7d"
  | .datetime t => dumpsStr t.toStr

def dumpsList : List Val → List String
  | [] => []
  | x :: xs => x.dumps :: dumpsList xs

def dumpsItems : List (String × Val) → List (String × String)
  | [] => []
  | (k, x) :: xs => (k, x.dumps) :: dumpsItems xs

end

/-! ## Exceptions -/

/-- An exception the modelled code can raise. -/
inductive PyExc where
  | valueError (msg : String)
  | validationError (model : String) (input : List (String × Val))
  | keyError (key : String)
  | typeError (msg : String)
  | attributeError (msg : String)

/-- The exception classes that the code raises or names in an `except`. -/
inductive ExcClass where
  | exception | valueError | validationError | lookupError | keyError | typeError | attributeError
  deriving DecidableEq

def PyExc.cls : PyExc → ExcClass
  | .valueError _ => .valueError
  | .validationError _ _ => .validationError
  | .keyError _ => .keyError
  | .typeError _ => .typeError
  | .attributeError _ => .attributeError

/-- The direct base class: `pydantic.ValidationError` is a `ValueError`. -/
def ExcClass.base : ExcClass → Option ExcClass
  | .exception => none
  | .validationError => some .valueError
  | .keyError => some .lookupError
  | _ => some .exception

/-- `issubclass`. No chain of bases is longer than two. -/
def ExcClass.isSubclass (c d : ExcClass) : Bool :=
  c = d || c.base = some d || (c.base.bind ExcClass.base) = some d

/-- The block of a `try` statement that handles `e`: that of the first `except`
clause one of whose classes `e` is an instance of. -/
def firstHandler {β : Type*} (clauses : List (List ExcClass × β)) (e : PyExc) : Option β :=
  (clauses.find? fun c => c.1.any e.cls.isSubclass).map Prod.snd

def ExcClass.name : ExcClass → String
  | .exception => "Exception"
  | .valueError => "ValueError"
  | .validationError => "ValidationError"
  | .lookupError => "LookupError"
  | .keyError => "KeyError"
  | .typeError => "TypeError"
  | .attributeError => "AttributeError"

/-- `str` of an exception. A `KeyError` shows its key by `repr`. -/
def Host.strExc (H : Host) : PyExc → String
  | .keyError k => H.reprStr k
  | .validationError model input => H.validationText model input
  | .valueError msg | .typeError msg | .attributeError msg => msg

/-- `repr` of an exception. -/
def Host.reprExc (H : Host) (e : PyExc) : String :=
  match e with
  | .validationError model input => H.validationText model input
  | .keyError s | .valueError s | .typeError s | .attributeError s =>
    e.cls.name ++ "(" ++ H.reprStr s ++ ")"

/-! ## Access -/

def Val.typeName : Val → String
  | .null => "NoneType"
  | .bool _ => "bool"
  | .int _ => "int"
  | .float _ => "float"
  | .str _ => "str"
  | .list _ => "list"
  | .dict _ => "dict"
  | .datetime _ => "datetime.datetime"

def Val.isDict : Val → Bool
  | .dict _ => true
  | _ => false

/-- The value at key `k` of a dict, `none` where `v` has no such key or is no dict. -/
def Val.item? : Val → String → Option Val
  | .dict items, k => items.lookup k
  | _, _ => none

/-- `v.get(k, default)`. -/
def Val.getD (v : Val) (k : String) (default : Val) : Except PyExc Val :=
  match v with
  | .dict items => .ok ((items.lookup k).getD default)
  | v => .error (.attributeError ("'" ++ v.typeName ++ "' object has no attribute 'get'"))

/-- `v.get(k)`. -/
def Val.get (v : Val) (k : String) : Except PyExc Val := v.getD k .null

/-- `v[k]`, for a string `k`. -/
def Val.subscript (v : Val) (k : String) : Except PyExc Val :=
  match v with
  | .dict items => match items.lookup k with
    | some x => .ok x
    | none => .error (.keyError k)
  | .str _ => .error (.typeError "string indices must be integers, not 'str'")
  | .list _ => .error (.typeError "list indices must be integers or slices, not str")
  | v => .error (.typeError ("'" ++ v.typeName ++ "' object is not subscriptable"))

/-- The integer a value is when `isinstance(v, int)`: a bool is one. -/
def Val.asInt? : Val → Option ℤ
  | .int n => some n
  | .bool b => some (if b then 1 else 0)
  | _ => none

/-- `v == s`, for a string `s`. -/
def Val.eqStr : Val → String → Bool
  | .str t, s => t = s
  | _, _ => false

@[simp] theorem Val.eqStr_iff {v : Val} {s : String} : v.eqStr s = true ↔ v = .str s := by
  cases v <;> simp [Val.eqStr]

theorem Val.subscript_ok {v x : Val} {k : String} : v.subscript k = .ok x ↔ v.item? k = some x := by
  cases v with
  | dict items =>
    simp only [Val.subscript, Val.item?]
    cases items.lookup k <;> simp
  | _ => simp [Val.subscript, Val.item?]

/-- A failed subscription is a `KeyError` or a `TypeError`. -/
theorem Val.subscript_error {v : Val} {k : String} {e : PyExc} (h : v.subscript k = .error e) :
    e.cls = .keyError ∨ e.cls = .typeError := by
  cases v with
  | dict items =>
    simp only [Val.subscript] at h
    split at h
    · cases h
    · cases h; exact Or.inl rfl
  | _ => simp only [Val.subscript] at h; cases h; exact Or.inr rfl

/-! ## Sequencing -/

theorem bind_ok {α β : Type} {x : Except PyExc α} {f : α → Except PyExc β} {b : β} :
    x.bind f = .ok b ↔ ∃ a, x = .ok a ∧ f a = .ok b := by
  cases x <;> simp [Except.bind]

theorem bind_error {α β : Type} {x : Except PyExc α} {f : α → Except PyExc β} {e : PyExc} :
    x.bind f = .error e ↔ x = .error e ∨ ∃ a, x = .ok a ∧ f a = .error e := by
  cases x <;> simp [Except.bind]

end BlueskyTrends
