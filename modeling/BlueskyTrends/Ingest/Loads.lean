import Mathlib.Data.List.TakeWhile
import BlueskyTrends.Ingest.Jetstream
import BlueskyTrends.Lib.JsonRead
import BlueskyTrends.Proof.Dumps

/-!
# What `json.loads` makes of a frame

The scanner of Python's `json` on top of the reader of JSON text: the escapes of a string, the
numerals, the three constants outside JSON. A dict takes its items one by one. A text with a lone
surrogate is not modelled: a string is a sequence of Unicode scalars.

* `loads_loaded`: what a value that was read is made of.
* `loads_dumps`: **a payload is read back** as the event with its dicts sorted by key.
-/

namespace BlueskyTrends

/-! ## Strings -/

/-- `BACKSLASH` of `json.decoder`. -/
def loadEscapes : List (Char × Char) := ('/', '/') :: shortEscapes

def isHex (c : Char) : Bool := c.isDigit || ('a' ≤ c.toLower && c.toLower ≤ 'f')

/-- `_decode_uXXXX`. -/
def decodeHex (cs : List Char) : Option (ℕ × List Char) :=
  let ds := cs.take 4
  if ds.length = 4 && ds.all isHex then some (digitsValue 16 (ds.map Char.toLower), cs.drop 4) else none

/-- The character of `\uXXXX`, after the `u`. -/
def unescapeHex (cs : List Char) : Option (Char × List Char) := do
  let (high, cs) ← decodeHex cs
  if 55296 ≤ high && high < 56320 then
    -- a surrogate pair is one character
    match cs with
    | b :: u :: cs =>
      if b = backslash && u = 'u' then do
        let (low, cs) ← decodeHex cs
        if 56320 ≤ low && low < 57344 then
          return (Char.ofNat (65536 + (high - 55296) * 1024 + (low - 56320)), cs)
        else none
      else none
    | _ => none
  else if 56320 ≤ high && high < 57344 then none
  else return (Char.ofNat high, cs)

/-- The next character of a string. -/
def unescape : Json.Reader Char
  | [] => none
  | c :: cs =>
    if c = backslash then match cs with
      | [] => none
      | x :: cs => if x = 'u' then unescapeHex cs else (loadEscapes.lookup x).map fun c => (c, cs)
    -- `strict`: no control characters
    else if c.toNat < 32 then none
    else some (c, cs)

/-! ## Numbers -/

/-- `sys.int_info.default_max_str_digits`. -/
@[irreducible] def maxStrDigits : ℕ := 4300

/-- The end of a numeral: an exponent, or nothing. -/
def exponent : List Char → Bool
  | [] => true
  | e :: cs => (e = 'e' || e = 'E') && match cs with
    | [] => false
    | s :: ds => if s = '+' || s = '-' then !ds.isEmpty && ds.all Char.isDigit else (s :: ds).all Char.isDigit

/-- What follows the integer part of a numeral. -/
def fraction : List Char → Bool
  | [] => true
  | c :: cs =>
    if c = '.' then !(cs.takeWhile Char.isDigit).isEmpty && exponent (cs.dropWhile Char.isDigit)
    else exponent (c :: cs)

def unsigned : List Char → List Char
  | '-' :: cs => cs
  | cs => cs

/-- `NUMBER_RE` of `json.scanner`, on a whole token: the digits of the integer part, and what
follows it. -/
def numberParts (text : List Char) : Option (List Char × List Char) :=
  let ds := (unsigned text).takeWhile Char.isDigit
  let rest := (unsigned text).dropWhile Char.isDigit
  if ds.isEmpty || (ds.head? = some '0' && 1 < ds.length) || !fraction rest then none else some (ds, rest)

/-- A numeral; `repr` is `repr(float(text))`. -/
def loadNumber (repr : String → String) (text : List Char) : Option Val := do
  let (ds, rest) ← numberParts text
  if rest.isEmpty then
    -- `int` refuses more digits
    if maxStrDigits < ds.length then none
    else return .int (if text.head? = some '-' then -(digitsValue 10 ds : ℤ) else digitsValue 10 ds)
  else return .float (repr (String.ofList text))

def loadAtom (repr : String → String) (text : List Char) : Option Val :=
  if text = "null".toList then some .null
  else if text = "true".toList then some (.bool true)
  else if text = "false".toList then some (.bool false)
  else if text = "NaN".toList then some (.float "nan")
  else if text = "Infinity".toList then some (.float "inf")
  else if text = "-Infinity".toList then some (.float "-inf")
  else loadNumber repr text

/-! ## Values -/

/-- `items[k] = v`: a key keeps its place. -/
def setItem (items : List (String × Val)) (k : String) (v : Val) : List (String × Val) :=
  if items.any fun p => p.1 = k then items.map fun p => if p.1 = k then (k, v) else p else items ++ [(k, v)]

/-- The dict of the pairs of an object. -/
def dictOf (pairs : List (String × Val)) : List (String × Val) :=
  pairs.foldl (fun items p => setItem items p.1 p.2) []

mutual

/-- The Python value of a JSON value. -/
def toVal (repr : String → String) : Json.Value → Option Val
  | .atom text => loadAtom repr text
  | .str s => some (.str (String.ofList s))
  | .arr xs => (toVals repr xs).map .list
  | .obj members => (toPairs repr members).map fun pairs => .dict (dictOf pairs)

def toVals (repr : String → String) : List Json.Value → Option (List Val)
  | [] => some []
  | x :: xs => do
    let v ← toVal repr x
    let vs ← toVals repr xs
    return v :: vs

def toPairs (repr : String → String) : List (List Char × Json.Value) → Option (List (String × Val))
  | [] => some []
  | (k, x) :: xs => do
    let v ← toVal repr x
    let vs ← toPairs repr xs
    return (String.ofList k, v) :: vs

end

/-- `json.loads`, `none` where it raises. -/
def loads (repr : String → String) (raw : String) : Option Val := (Json.read unescape raw.toList).bind (toVal repr)

/-- A text frame the client receives. -/
def Frame.ofText (repr : String → String) (raw : String) : Frame := ⟨loads repr raw⟩

/-! ## Reading an escape -/

theorem isHex_digitChar {n : ℕ} (hn : n < 16) : isHex n.digitChar ∧ n.digitChar.toLower = n.digitChar := by
  interval_cases n <;> decide

theorem isHex_toDigits {n : ℕ} {c : Char} (hc : c ∈ Nat.toDigits 16 n) : isHex c ∧ c.toLower = c := by
  induction n using Nat.strong_induction_on with
  | _ n ih =>
    rw [Nat.toDigits_eq_if (by omega)] at hc
    split at hc
    · rename_i hn
      rw [List.mem_singleton.1 hc]
      exact isHex_digitChar hn
    · rcases List.mem_append.1 hc with hc | hc
      · exact ih (n / 16) (by omega) hc
      · rw [List.mem_singleton.1 hc]
        exact isHex_digitChar (by omega)

/-- **Four hex digits are read back.** -/
theorem decodeHex_padDigits {n : ℕ} (hn : n < 65536) (rest : List Char) :
    decodeHex ((padDigits 16 4 n).toList ++ rest) = some (n, rest) := by
  have hlen := length_padDigits hn
  have hhex : ∀ c ∈ (padDigits 16 4 n).toList, isHex c ∧ c.toLower = c := by
    intro c hc
    rw [toList_padDigits] at hc
    rcases List.mem_append.1 hc with hc | hc
    · rw [List.eq_of_mem_replicate hc]
      decide
    · exact isHex_toDigits hc
  have hall : (padDigits 16 4 n).toList.all isHex := List.all_eq_true.2 fun c hc => (hhex c hc).1
  have hlower : (padDigits 16 4 n).toList.map Char.toLower = (padDigits 16 4 n).toList :=
    (List.map_congr_left fun c hc => (hhex c hc).2).trans (List.map_id _)
  have hvalue : digitsValue 16 (padDigits 16 4 n).toList = n := by
    rw [toList_padDigits, digitsValue_zeros, digitsValue_toDigits (by omega) (by omega)]
  unfold decodeHex
  rw [List.take_append_of_le_length (by omega), List.drop_append_of_le_length (by omega), List.take_of_length_le (by omega),
    List.drop_of_length_le (by omega)]
  simp [hlen, hall, hlower, hvalue]

theorem hexEscape_append (n : ℕ) (rest : List Char) :
    hexEscape n ++ rest = backslash :: 'u' :: ((padDigits 16 4 n).toList ++ rest) := rfl

/-- A character that is written as it is is no control character. -/
theorem le_of_dumpsChar {c : Char} (h : (dumpsChar c).toList = [c]) : 32 ≤ c.toNat := by
  by_contra hc
  have hlen := congrArg List.length h
  unfold dumpsChar at hlen
  simp only at hlen
  split at hlen
  · simp at hlen
  split at hlen
  · simp at hlen
  split at hlen
  · simp at hlen
  split at hlen
  · simp at hlen
  split at hlen
  · simp at hlen
  split at hlen
  · simp at hlen
  rw [if_neg (by simp; omega), if_pos (by omega)] at hlen
  simp [length_padDigits (show c.toNat < 65536 by omega)] at hlen

theorem lookup_loadEscapes {c x : Char} (h : shortEscapes.lookup x = some c) :
    x ≠ 'u' ∧ loadEscapes.lookup x = some c := by
  constructor
  · rintro rfl
    cases h
  · have hne : x ≠ '/' := by
      rintro rfl
      cases h
    rw [loadEscapes, List.lookup_cons, beq_false_of_ne hne]
    exact h

theorem unescapeHex_basic {c : Char} (h : c.toNat < 65536) (rest : List Char) :
    unescapeHex ((padDigits 16 4 c.toNat).toList ++ rest) = some (c, rest) := by
  have hc := toNat_lt c
  have hhigh : (55296 ≤ c.toNat && c.toNat < 56320) = false := by
    simp only [Bool.and_eq_false_iff, decide_eq_false_iff_not]
    omega
  have hlow : (56320 ≤ c.toNat && c.toNat < 57344) = false := by
    simp only [Bool.and_eq_false_iff, decide_eq_false_iff_not]
    omega
  unfold unescapeHex
  rw [decodeHex_padDigits h]
  simp only [Option.bind_eq_bind, Option.bind_some, hhigh, hlow, Bool.false_eq_true, if_false, Char.ofNat_toNat]
  rfl

theorem unescapeHex_pair {c : Char} {high low : ℕ} (hhigh : 55296 ≤ high ∧ high < 56320)
    (hlow : 56320 ≤ low ∧ low < 57344) (hc : 65536 + (high - 55296) * 1024 + (low - 56320) = c.toNat)
    (rest : List Char) :
    unescapeHex ((padDigits 16 4 high).toList ++ (hexEscape low ++ rest)) = some (c, rest) := by
  unfold unescapeHex
  rw [decodeHex_padDigits (by omega), hexEscape_append]
  simp only [Option.bind_eq_bind, Option.bind_some, hhigh, decide_true, Bool.and_self, if_true]
  rw [decodeHex_padDigits (by omega)]
  simp only [Option.bind_some, hlow, decide_true, Bool.and_self, if_true, hc, Char.ofNat_toNat]
  rfl

theorem unescape_hex (cs : List Char) : unescape (backslash :: 'u' :: cs) = unescapeHex cs := by
  simp [unescape]

/-- **A character is read as it is written.** -/
theorem inverts_unescape : Json.Inverts dumpsEscape unescape := by
  intro c rest
  have hc := toNat_lt c
  have hwritten := written_dumpsChar c
  have hle := le_of_dumpsChar (c := c)
  change unescape ((dumpsChar c).toList ++ rest) = some (c, rest)
  generalize (dumpsChar c).toList = text at hwritten hle
  cases hwritten with
  | short h =>
    obtain ⟨hu, hlookup⟩ := lookup_loadEscapes h
    simp [unescape, hu, hlookup]
  | plain hb hq =>
    have hlt := hle rfl
    simp [unescape, hb, hlt]
  | basic h =>
    rw [hexEscape_append, unescape_hex]
    exact unescapeHex_basic h rest
  | pair h =>
    rw [List.append_assoc, hexEscape_append, unescape_hex]
    exact unescapeHex_pair (by omega) (by omega) (by omega) rest

/-! ## Reading a numeral -/

theorem token_digit {c : Char} (hc : c.isDigit) : Json.token c := by
  have hblank : Json.blank c = false := by
    by_contra h
    simp only [Json.blank, Bool.not_eq_false, Bool.or_eq_true, decide_eq_true_eq, or_assoc] at h
    rcases h with rfl | rfl | rfl | rfl <;> exact absurd hc (by decide)
  rw [Json.token, plain_digit hc, hblank]
  rfl

theorem token_exponent {cs : List Char} (h : exponent cs) : ∀ c ∈ cs, Json.token c := by
  cases cs with
  | nil => simp
  | cons e cs =>
    simp only [exponent, Bool.and_eq_true, Bool.or_eq_true, decide_eq_true_eq] at h
    obtain ⟨he, hcs⟩ := h
    have htoken : Json.token e := by rcases he with rfl | rfl <;> decide
    cases cs with
    | nil => cases hcs
    | cons s ds =>
      change (if s = '+' ∨ s = '-' then !ds.isEmpty && ds.all Char.isDigit else (s :: ds).all Char.isDigit) = true at hcs
      split at hcs
      · rename_i hs
        have hsign : Json.token s := by rcases hs with rfl | rfl <;> decide
        simp only [Bool.and_eq_true, List.all_eq_true] at hcs
        intro c hc
        rcases List.mem_cons.1 hc with rfl | hc
        · exact htoken
        rcases List.mem_cons.1 hc with rfl | hc
        · exact hsign
        · exact token_digit (hcs.2 c hc)
      · rw [List.all_eq_true] at hcs
        intro c hc
        rcases List.mem_cons.1 hc with rfl | hc
        · exact htoken
        · exact token_digit (hcs c hc)

theorem token_fraction {cs : List Char} (h : fraction cs) : ∀ c ∈ cs, Json.token c := by
  cases cs with
  | nil => simp
  | cons c cs =>
    rw [fraction] at h
    split at h
    · rename_i hdot
      rw [Bool.and_eq_true] at h
      intro x hx
      rcases List.mem_cons.1 hx with rfl | hx
      · rw [hdot]
        decide
      · rw [← List.takeWhile_append_dropWhile (p := Char.isDigit) (l := cs)] at hx
        rcases List.mem_append.1 hx with hx | hx
        · exact token_digit ((List.mem_takeWhile_imp hx))
        · exact token_exponent h.2 x hx
    · exact token_exponent h

/-- A numeral is its sign, its integer part and what follows it. -/
theorem numberParts_eq_some {text ds rest : List Char} : numberParts text = some (ds, rest) ↔
    unsigned text = ds ++ rest ∧ (unsigned text).takeWhile Char.isDigit = ds ∧ ds ≠ [] ∧
      (ds.head? = some '0' → ds.length ≤ 1) ∧ fraction rest := by
  have hsplit := List.takeWhile_append_dropWhile (p := Char.isDigit) (l := unsigned text)
  unfold numberParts
  simp only
  split
  · rename_i h
    simp only [Bool.or_eq_true, List.isEmpty_iff, Bool.and_eq_true, decide_eq_true_eq, Bool.not_eq_true'] at h
    constructor
    · intro h
      cases h
    · rintro ⟨htext, hds, hne, hzero, hfrac⟩
      rw [hds] at h hsplit
      have hrest := List.append_cancel_left (hsplit.trans htext)
      rw [hrest] at h
      rcases h with (h | ⟨h, hlen⟩) | h
      · exact absurd h hne
      · have := hzero h
        omega
      · rw [hfrac] at h
        cases h
  · rename_i h
    simp only [Bool.or_eq_true, List.isEmpty_iff, Bool.and_eq_true, decide_eq_true_eq, Bool.not_eq_true', not_or,
      not_and, not_lt, Bool.not_eq_false] at h
    obtain ⟨⟨hne, hzero⟩, hfrac⟩ := h
    simp only [Option.some.injEq, Prod.mk.injEq]
    constructor
    · rintro ⟨rfl, rfl⟩
      exact ⟨hsplit.symm, rfl, hne, hzero, hfrac⟩
    · rintro ⟨htext, hds, -⟩
      rw [hds] at hsplit ⊢
      exact ⟨rfl, List.append_cancel_left (hsplit.trans htext)⟩

theorem unsigned_eq (text : List Char) : unsigned text = text ∨ text = '-' :: unsigned text := by
  unfold unsigned
  split
  · exact Or.inr rfl
  · exact Or.inl rfl

/-- A numeral is one token. -/
theorem token_number {text ds rest : List Char} (h : numberParts text = some (ds, rest)) :
    text ≠ [] ∧ ∀ c ∈ text, Json.token c := by
  obtain ⟨htext, hds, hne, -, hfrac⟩ := numberParts_eq_some.1 h
  have htoken : ∀ c ∈ unsigned text, Json.token c := by
    intro c hc
    rw [htext] at hc
    rcases List.mem_append.1 hc with hc | hc
    · rw [← hds] at hc
      exact token_digit (List.mem_takeWhile_imp hc)
    · exact token_fraction hfrac c hc
  have hunsigned : unsigned text ≠ [] := by
    rw [htext]
    simp [hne]
  rcases unsigned_eq text with heq | heq
  · rw [heq] at htoken hunsigned
    exact ⟨hunsigned, htoken⟩
  · constructor
    · rw [heq]
      exact List.cons_ne_nil _ _
    · intro c hc
      rw [heq] at hc
      rcases List.mem_cons.1 hc with rfl | hc
      · decide
      · exact htoken c hc

/-- The numeral of an integer starts with a zero only if it is one. -/
theorem toDigits_head (n : ℕ) : (Nat.toDigits 10 n).head? = some '0' → (Nat.toDigits 10 n).length ≤ 1 := by
  induction n using Nat.strong_induction_on with
  | _ n ih =>
    rw [Nat.toDigits_eq_if (by omega)]
    split
    · simp
    · rename_i hn
      intro h
      have hhead : (Nat.toDigits 10 (n / 10)).head? = some '0' := by
        rwa [List.head?_append_of_ne_nil _ Nat.toDigits_ne_nil] at h
      have hlen := ih (n / 10) (by omega) hhead
      have hvalue := digitsValue_toDigits (b := 10) (by omega) (by omega) (n / 10)
      have hone : Nat.toDigits 10 (n / 10) = ['0'] := by
        obtain ⟨c, cs, hc⟩ := List.exists_cons_of_ne_nil (Nat.toDigits_ne_nil (n := n / 10) (b := 10))
        rw [hc] at hlen hhead ⊢
        have hnil : cs = [] := List.length_eq_zero_iff.1 (by simpa using hlen)
        rw [hnil, Option.some.inj hhead]
      rw [hone] at hvalue
      have hzero : digitsValue 10 ['0'] = 0 := by decide
      omega

theorem takeWhile_toDigits (n : ℕ) : (Nat.toDigits 10 n).takeWhile Char.isDigit = Nat.toDigits 10 n :=
  List.takeWhile_eq_self_iff.2 fun _ hc => Nat.isDigit_of_mem_toDigits (by omega) le_rfl hc

theorem unsigned_toDigits (n : ℕ) : unsigned (Nat.toDigits 10 n) = Nat.toDigits 10 n := by
  rcases unsigned_eq (Nat.toDigits 10 n) with h | h
  · exact h
  · have hmem : '-' ∈ Nat.toDigits 10 n := by
      rw [h]
      exact List.mem_cons_self
    exact absurd (Nat.isDigit_of_mem_toDigits (by omega) le_rfl hmem) (by decide)

/-- The text of an integer. -/
theorem toList_int (n : ℤ) : (toString n).toList =
    if n < 0 then '-' :: Nat.toDigits 10 n.natAbs else Nat.toDigits 10 n.natAbs := by
  rw [Int.toString_eq_repr, Int.repr_eq_if]
  split
  · rename_i hn
    rw [if_neg (by omega), Nat.toList_repr]
    congr 1
    omega
  · rename_i hn
    rw [if_pos (by omega), String.toList_append, Nat.toList_repr]
    have habs : (-n).toNat = n.natAbs := by omega
    rw [habs]
    rfl

theorem unsigned_int (n : ℤ) : unsigned (toString n).toList = Nat.toDigits 10 n.natAbs := by
  rw [toList_int]
  split
  · rfl
  · exact unsigned_toDigits _

theorem numberParts_int (n : ℤ) : numberParts (toString n).toList = some (Nat.toDigits 10 n.natAbs, []) := by
  refine numberParts_eq_some.2 ⟨?_, ?_, Nat.toDigits_ne_nil, toDigits_head _, rfl⟩
  · rw [unsigned_int, List.append_nil]
  · rw [unsigned_int, takeWhile_toDigits]

/-- **The numeral of an integer is read back.** -/
theorem loadNumber_int (repr : String → String) {n : ℤ} (hn : (Nat.toDigits 10 n.natAbs).length ≤ maxStrDigits) :
    loadNumber repr (toString n).toList = some (.int n) := by
  have hvalue := digitsValue_toDigits (b := 10) (by omega) (by omega) n.natAbs
  have hsign : (if (toString n).toList.head? = some '-' then -(n.natAbs : ℤ) else n.natAbs) = n := by
    rw [toList_int]
    split
    · rename_i hneg
      simp only [List.head?_cons, if_true]
      omega
    · rename_i hpos
      rw [if_neg]
      · omega
      · intro h
        have hmem : '-' ∈ Nat.toDigits 10 n.natAbs := List.mem_of_mem_head? h
        exact absurd (Nat.isDigit_of_mem_toDigits (by omega) le_rfl hmem) (by decide)
  unfold loadNumber
  rw [numberParts_int]
  simp only [Option.bind_eq_bind, Option.bind_some, List.isEmpty_nil, if_true]
  rw [if_neg (by omega), hvalue, hsign]
  rfl

/-! ## What is read -/

/-- The text of a finite float that is no integer's. -/
def FloatNumeral (r : String) : Prop := ∃ ds rest, numberParts r.toList = some (ds, rest) ∧ rest ≠ []

/-- What the code relies on of floats: `repr` of one that was read is a numeral that stands for the
same float, unless it is infinite. -/
def StableRepr (repr : String → String) : Prop :=
  ∀ r, FloatNumeral r → repr r = "inf" ∨ repr r = "-inf" ∨ FloatNumeral (repr r) ∧ repr (repr r) = repr r

/-- A value that `json.loads` can make. -/
inductive Loaded (repr : String → String) : Val → Prop
  | null : Loaded repr .null
  | bool (b : Bool) : Loaded repr (.bool b)
  | int {n : ℤ} (h : (Nat.toDigits 10 n.natAbs).length ≤ maxStrDigits) : Loaded repr (.int n)
  | special {r : String} (h : r = "nan" ∨ r = "inf" ∨ r = "-inf") : Loaded repr (.float r)
  | float {r : String} (h : FloatNumeral r) (hr : repr r = r) : Loaded repr (.float r)
  | str (s : String) : Loaded repr (.str s)
  | list {xs : List Val} (h : ∀ x ∈ xs, Loaded repr x) : Loaded repr (.list xs)
  | dict {items : List (String × Val)} (hk : (items.map Prod.fst).Nodup) (h : ∀ p ∈ items, Loaded repr p.2) :
      Loaded repr (.dict items)

/-! ## Dicts -/

theorem keys_setItem (items : List (String × Val)) (k : String) (v : Val) :
    (setItem items k v).map Prod.fst =
      if k ∈ items.map Prod.fst then items.map Prod.fst else items.map Prod.fst ++ [k] := by
  have hany : (items.any fun p => p.1 = k) = true ↔ k ∈ items.map Prod.fst := by
    simp [List.any_eq_true, List.mem_map]
  unfold setItem
  by_cases hk : k ∈ items.map Prod.fst
  · rw [if_pos (hany.2 hk), if_pos hk, List.map_map]
    refine List.map_congr_left fun p _ => ?_
    simp only [Function.comp_apply]
    split
    · rename_i h
      exact h.symm
    · rfl
  · rw [if_neg (fun h => hk (hany.1 h)), if_neg hk, List.map_append]
    rfl

theorem mem_setItem {items : List (String × Val)} {k : String} {v : Val} {p : String × Val}
    (hp : p ∈ setItem items k v) : p.2 = v ∨ p ∈ items := by
  unfold setItem at hp
  split at hp
  · obtain ⟨q, hq, rfl⟩ := List.mem_map.1 hp
    split
    · exact Or.inl rfl
    · exact Or.inr hq
  · rcases List.mem_append.1 hp with hp | hp
    · exact Or.inr hp
    · rw [List.mem_singleton.1 hp]
      exact Or.inl rfl

/-- A dict has a key once, and the values of its pairs. -/
theorem dictOf_spec (pairs : List (String × Val)) :
    ((dictOf pairs).map Prod.fst).Nodup ∧ ∀ p ∈ dictOf pairs, ∃ q ∈ pairs, p.2 = q.2 := by
  induction pairs using List.reverseRecOn with
  | nil => simp [dictOf]
  | append_singleton pairs q ih =>
    obtain ⟨hnodup, hvalues⟩ := ih
    have hstep : dictOf (pairs ++ [q]) = setItem (dictOf pairs) q.1 q.2 := by
      rw [dictOf, List.foldl_append]
      rfl
    rw [hstep]
    constructor
    · rw [keys_setItem]
      split
      · exact hnodup
      · rename_i hk
        exact hnodup.append (List.nodup_singleton _) (by simpa using hk)
    · intro p hp
      rcases mem_setItem hp with h | h
      · exact ⟨q, by simp, h⟩
      · obtain ⟨r, hr, h⟩ := hvalues p h
        exact ⟨r, List.mem_append_left _ hr, h⟩

/-- Pairs with keys of their own are the items. -/
theorem dictOf_eq {pairs : List (String × Val)} (h : (pairs.map Prod.fst).Nodup) : dictOf pairs = pairs := by
  induction pairs using List.reverseRecOn with
  | nil => rfl
  | append_singleton pairs q ih =>
    rw [List.map_append, List.nodup_append] at h
    obtain ⟨hpairs, -, hne⟩ := h
    have hstep : dictOf (pairs ++ [q]) = setItem (dictOf pairs) q.1 q.2 := by
      rw [dictOf, List.foldl_append]
      rfl
    have hnew : ¬ (pairs.any fun p => p.1 = q.1) = true := by
      intro hany
      obtain ⟨p, hp, hk⟩ := List.any_eq_true.1 hany
      exact hne p.1 (List.mem_map_of_mem hp) q.1 (by simp) (by simpa using hk)
    rw [hstep, ih hpairs, setItem, if_neg hnew]

/-! ## A loaded value -/

variable {repr : String → String}

theorem toVals_eq (xs : List Json.Value) : toVals repr xs = xs.mapM (toVal repr) := by
  induction xs with
  | nil => rw [toVals]; rfl
  | cons x xs ih => rw [toVals, ih]; simp [List.mapM_cons]

theorem toPairs_eq (members : List (List Char × Json.Value)) :
    toPairs repr members = members.mapM fun m => (toVal repr m.2).map fun v => (String.ofList m.1, v) := by
  induction members with
  | nil => rw [toPairs]; rfl
  | cons m members ih =>
    obtain ⟨k, x⟩ := m
    rw [toPairs, ih, List.mapM_cons]
    cases toVal repr x with
    | none => rfl
    | some v => rfl

/-- The values a list is read as are read from its elements. -/
theorem mem_of_mapM {α β : Type} {f : α → Option β} {xs : List α} {ys : List β} (h : xs.mapM f = some ys) {y : β}
    (hy : y ∈ ys) : ∃ x ∈ xs, f x = some y := by
  induction xs generalizing ys with
  | nil =>
    obtain rfl : ys = [] := by simpa using h.symm
    cases hy
  | cons x xs ih =>
    rw [List.mapM_cons] at h
    simp only [Option.bind_eq_bind, Option.bind_eq_some_iff, Option.pure_def, Option.some.injEq] at h
    obtain ⟨b, hb, bs, hbs, rfl⟩ := h
    rcases List.mem_cons.1 hy with rfl | hy
    · exact ⟨x, List.mem_cons_self, hb⟩
    · obtain ⟨z, hz, hzy⟩ := ih hbs hy
      exact ⟨z, List.mem_cons_of_mem _ hz, hzy⟩

theorem digitsValue_lt {cs : List Char} (h : ∀ c ∈ cs, c.isDigit) : digitsValue 10 cs < 10 ^ cs.length := by
  induction cs using List.reverseRecOn with
  | nil => simp [digitsValue]
  | append_singleton cs c ih =>
    have hcs := ih fun d hd => h d (List.mem_append_left _ hd)
    have hc := h c (by simp)
    have hdigit : digitValue c < 10 := by
      have hrange : 48 ≤ c.toNat ∧ c.toNat ≤ 57 := Char.isDigit_iff_toNat.1 hc
      unfold digitValue
      rw [if_pos (by omega)]
      omega
    have hstep : digitsValue 10 (cs ++ [c]) = 10 * digitsValue 10 cs + digitValue c := by
      rw [digitsValue, List.foldl_append]
      rfl
    rw [hstep, List.length_append, List.length_singleton, pow_succ]
    omega

/-- A numeral is read as an integer `int` takes, or a float. -/
theorem loadNumber_loaded (hrepr : StableRepr repr) {text : List Char} {v : Val} (h : loadNumber repr text = some v) :
    Loaded repr v := by
  unfold loadNumber at h
  simp only [Option.bind_eq_bind, Option.bind_eq_some_iff, Prod.exists] at h
  obtain ⟨ds, rest, hparts, h⟩ := h
  split at h
  · split at h
    · cases h
    · rename_i hlen
      obtain ⟨-, hds, hne, -⟩ := numberParts_eq_some.1 hparts
      have hdigits : ∀ c ∈ ds, c.isDigit := by
        intro c hc
        rw [← hds] at hc
        exact List.mem_takeWhile_imp hc
      have hlt := digitsValue_lt hdigits
      have hpos : 0 < ds.length := List.length_pos_iff.2 hne
      have hle : (Nat.toDigits 10 (digitsValue 10 ds)).length ≤ ds.length :=
        (Nat.length_toDigits_le_iff (by omega) hpos).2 hlt
      obtain rfl := Option.some.inj h
      refine .int ?_
      split
      · rw [Int.natAbs_neg, Int.natAbs_natCast]
        omega
      · rw [Int.natAbs_natCast]
        omega
  · rename_i hrest
    obtain rfl := Option.some.inj h
    have hnumeral : FloatNumeral (String.ofList text) :=
      ⟨ds, rest, by rwa [String.toList_ofList], by simpa using hrest⟩
    rcases hrepr _ hnumeral with hinf | hinf | ⟨hnum, hstable⟩
    · exact .special (Or.inr (Or.inl hinf))
    · exact .special (Or.inr (Or.inr hinf))
    · exact .float hnum hstable

theorem loadAtom_loaded (hrepr : StableRepr repr) {text : List Char} {v : Val} (h : loadAtom repr text = some v) :
    Loaded repr v := by
  unfold loadAtom at h
  split at h
  · obtain rfl := Option.some.inj h
    exact .null
  split at h
  · obtain rfl := Option.some.inj h
    exact .bool true
  split at h
  · obtain rfl := Option.some.inj h
    exact .bool false
  split at h
  · obtain rfl := Option.some.inj h
    exact .special (Or.inl rfl)
  split at h
  · obtain rfl := Option.some.inj h
    exact .special (Or.inr (Or.inl rfl))
  split at h
  · obtain rfl := Option.some.inj h
    exact .special (Or.inr (Or.inr rfl))
  · exact loadNumber_loaded hrepr h

theorem toVal_loaded (hrepr : StableRepr repr) : ∀ (x : Json.Value) {v : Val}, toVal repr x = some v → Loaded repr v := by
  intro x
  induction x using Json.Value.ind with
  | hatom text =>
    intro v h
    rw [toVal] at h
    exact loadAtom_loaded hrepr h
  | hstr s =>
    intro v h
    rw [toVal] at h
    obtain rfl := Option.some.inj h
    exact .str _
  | harr xs ih =>
    intro v h
    rw [toVal, toVals_eq] at h
    obtain ⟨vs, hvs, rfl⟩ := Option.map_eq_some_iff.1 h
    refine .list fun v hv => ?_
    obtain ⟨x, hx, hxv⟩ := mem_of_mapM hvs hv
    exact ih x hx hxv
  | hobj members ih =>
    intro v h
    rw [toVal, toPairs_eq] at h
    obtain ⟨pairs, hpairs, rfl⟩ := Option.map_eq_some_iff.1 h
    obtain ⟨hnodup, hvalues⟩ := dictOf_spec pairs
    refine .dict hnodup fun p hp => ?_
    obtain ⟨q, hq, hpq⟩ := hvalues p hp
    obtain ⟨m, hm, hmq⟩ := mem_of_mapM hpairs hq
    obtain ⟨w, hw, hwq⟩ := Option.map_eq_some_iff.1 hmq
    rw [hpq, ← hwq]
    exact ih m hm hw

/-- **What is read.** -/
theorem loads_loaded (hrepr : StableRepr repr) {raw : String} {v : Val} (h : loads repr raw = some v) :
    Loaded repr v := by
  obtain ⟨x, -, hx⟩ := Option.bind_eq_some_iff.1 h
  exact toVal_loaded hrepr x hx

/-! ## The event with its dicts sorted -/

mutual

/-- A value with the items of its dicts by key. -/
def Val.sorted : Val → Val
  | .list xs => .list (sortedList xs)
  | .dict items => .dict ((sortedItems items).insertionSort fun a b => a.1 ≤ b.1)
  | v => v

def sortedList : List Val → List Val
  | [] => []
  | x :: xs => x.sorted :: sortedList xs

def sortedItems : List (String × Val) → List (String × Val)
  | [] => []
  | (k, x) :: xs => (k, x.sorted) :: sortedItems xs

end

theorem sortedList_eq (xs : List Val) : sortedList xs = xs.map Val.sorted := by
  induction xs with
  | nil => rw [sortedList]; rfl
  | cons x xs ih => rw [sortedList, ih]; rfl

theorem sortedItems_eq (items : List (String × Val)) : sortedItems items = items.map fun p => (p.1, p.2.sorted) := by
  induction items with
  | nil => rw [sortedItems]; rfl
  | cons x xs ih => rw [sortedItems, ih]; rfl

/-- A value without items stays. -/
def Val.scalar : Val → Bool
  | .list _ | .dict _ => false
  | _ => true

theorem sorted_scalar {v : Val} (h : v.scalar) : v.sorted = v := by
  cases v with
  | list | dict => cases h
  | _ => rw [Val.sorted] <;> simp

theorem sorted_list (xs : List Val) : (Val.list xs).sorted = .list (xs.map Val.sorted) := by
  rw [Val.sorted, sortedList_eq]

theorem sorted_dict (items : List (String × Val)) : (Val.dict items).sorted =
    .dict ((items.insertionSort fun a b => a.1 ≤ b.1).map fun p => (p.1, p.2.sorted)) := by
  rw [Val.sorted, sortedItems_eq, insertionSort_map]

/-- Sorting a second time does nothing. -/
theorem insertionSort_idem {α : Type} (items : List (String × α)) :
    (items.insertionSort fun a b => a.1 ≤ b.1).insertionSort (fun a b => a.1 ≤ b.1) =
      items.insertionSort fun a b => a.1 ≤ b.1 := by
  have : Std.Total fun a b : String × α => a.1 ≤ b.1 := ⟨fun a b => String.le_total a.1 b.1⟩
  have : IsTrans (String × α) fun a b => a.1 ≤ b.1 := ⟨fun _ _ _ => String.le_trans⟩
  exact (List.pairwise_insertionSort _ items).insertionSort_eq

/-- **The order of the keys is not in the text.** -/
theorem json_sorted (v : Val) : v.sorted.json = v.json := by
  induction v using Val.ind with
  | hlist xs ih =>
    rw [sorted_list, Val.json, Val.json, jsonList_eq, jsonList_eq, List.map_map]
    congr 1
    exact List.map_congr_left ih
  | hdict items ih =>
    rw [sorted_dict, Val.json, Val.json, jsonItems_eq, jsonItems_eq, List.map_map]
    simp only [Function.comp_def]
    rw [insertionSort_map (fun v : Val => v.sorted.json), insertionSort_idem, insertionSort_map, List.map_map,
      List.map_map]
    congr 1
    refine List.map_congr_left fun p hp => ?_
    simp only [Function.comp_apply, ih p ((List.perm_insertionSort _ _).mem_iff.1 hp)]
  | hnull | hbool | hint | hfloat | hstr | hdatetime => rw [sorted_scalar rfl]

theorem dumps_sorted (v : Val) : v.sorted.dumps = v.dumps := by
  rw [← String.toList_inj, dumps_eq_print, dumps_eq_print, json_sorted]

/-! ## Reading a payload -/

theorem mapM_of_forall {α β : Type} {f : α → Option β} {g : α → β} {xs : List α} (h : ∀ x ∈ xs, f x = some (g x)) :
    xs.mapM f = some (xs.map g) := by
  induction xs with
  | nil => rfl
  | cons x xs ih =>
    rw [List.mapM_cons, h x List.mem_cons_self, ih fun y hy => h y (List.mem_cons_of_mem _ hy)]
    rfl

/-- A numeral is none of the constants. -/
theorem loadAtom_number {text ds rest : List Char} (h : numberParts text = some (ds, rest)) :
    loadAtom repr text = loadNumber repr text := by
  have hword : ∀ word : List Char, numberParts word = none → text ≠ word := by
    rintro word hword rfl
    rw [hword] at h
    cases h
  unfold loadAtom
  rw [if_neg (hword _ (by decide)), if_neg (hword _ (by decide)), if_neg (hword _ (by decide)),
    if_neg (hword _ (by decide)), if_neg (hword _ (by decide)), if_neg (hword _ (by decide))]

/-- A float that is a numeral is written as one. -/
theorem floatText_numeral {r : String} (h : FloatNumeral r) : floatText r = r := by
  obtain ⟨ds, rest, hparts, -⟩ := h
  have hword : ∀ word : String, numberParts word.toList = none → r ≠ word := by
    rintro word hword rfl
    rw [hword] at hparts
    cases hparts
  unfold floatText
  rw [if_neg (hword _ (by decide)), if_neg (hword _ (by decide)), if_neg (hword _ (by decide))]

theorem loadNumber_float {r : String} (h : FloatNumeral r) (hr : repr r = r) :
    loadNumber repr r.toList = some (.float r) := by
  obtain ⟨ds, rest, hparts, hrest⟩ := h
  unfold loadNumber
  rw [hparts]
  simp [hrest, hr]

/-- **What is written is read** as the value with its dicts sorted. -/
theorem toVal_json {v : Val} (hv : Loaded repr v) : toVal repr v.json = some v.sorted := by
  induction hv with
  | null =>
    rw [Val.json, toVal, sorted_scalar rfl]
    exact if_pos rfl
  | bool b =>
    rw [Val.json, toVal, sorted_scalar rfl]
    cases b
    · exact if_neg (by decide)
    · exact if_neg (by decide)
  | @int n hn => rw [Val.json, toVal, sorted_scalar rfl, loadAtom_number (numberParts_int n), loadNumber_int repr hn]
  | @special r hr =>
    rw [Val.json, toVal, sorted_scalar rfl]
    rcases hr with rfl | rfl | rfl <;> exact if_neg (by decide)
  | @float r h hr =>
    obtain ⟨ds, rest, hparts, -⟩ := id h
    rw [Val.json, toVal, sorted_scalar rfl, floatText_numeral h, loadAtom_number hparts, loadNumber_float h hr]
  | str s => rw [Val.json, toVal, sorted_scalar rfl, String.ofList_toList]
  | list _ ih =>
    rw [Val.json, toVal, toVals_eq, jsonList_eq, List.mapM_map]
    simp only [Function.comp_def]
    rw [mapM_of_forall ih, sorted_list]
    rfl
  | @dict items hk _ ih =>
    have hpairs : ∀ p ∈ items.insertionSort fun a b => a.1 ≤ b.1,
        (toVal repr p.2.json).map (fun v => (String.ofList p.1.toList, v)) = some (p.1, p.2.sorted) := by
      intro p hp
      rw [ih p ((List.perm_insertionSort _ _).mem_iff.1 hp), String.ofList_toList]
      rfl
    have hkeys : (((items.insertionSort fun a b => a.1 ≤ b.1).map fun p => (p.1, p.2.sorted)).map Prod.fst).Nodup := by
      rw [List.map_map]
      exact ((List.perm_insertionSort _ items).map _).nodup_iff.2 hk
    rw [Val.json, toVal, toPairs_eq, jsonItems_eq, insertionSort_map, List.map_map, List.mapM_map]
    simp only [Function.comp_def]
    rw [mapM_of_forall hpairs, Option.map_some, dictOf_eq hkeys, sorted_dict]

theorem token_word {t : List Char} (hne : t.isEmpty = false) (hall : t.all Json.token = true) :
    t ≠ [] ∧ ∀ c ∈ t, Json.token c := by
  constructor
  · rintro rfl
    cases hne
  · exact List.all_eq_true.1 hall

/-- Every atom of a payload is one token. -/
theorem compact_json {v : Val} (hv : Loaded repr v) : Json.Compact v.json := by
  induction hv with
  | null =>
    obtain ⟨hne, htoken⟩ := token_word (t := "null".toList) rfl rfl
    rw [Val.json]
    exact .atom hne htoken
  | bool b =>
    have hword : (if b then "true" else "false").toList ≠ [] ∧
        ∀ c ∈ (if b then "true" else "false").toList, Json.token c := by
      cases b
      · exact token_word rfl rfl
      · exact token_word rfl rfl
    rw [Val.json]
    exact .atom hword.1 hword.2
  | @int n =>
    obtain ⟨hne, htoken⟩ := token_number (numberParts_int n)
    rw [Val.json]
    exact .atom hne htoken
  | @special r hr =>
    have hword : (floatText r).toList ≠ [] ∧ ∀ c ∈ (floatText r).toList, Json.token c := by
      rcases hr with rfl | rfl | rfl
      · exact token_word rfl rfl
      · exact token_word rfl rfl
      · exact token_word rfl rfl
    rw [Val.json]
    exact .atom hword.1 hword.2
  | @float r h =>
    obtain ⟨ds, rest, hparts, -⟩ := id h
    obtain ⟨hne, htoken⟩ := token_number hparts
    rw [Val.json, floatText_numeral h]
    exact .atom hne htoken
  | str s => rw [Val.json]; exact .str _
  | list _ ih =>
    rw [Val.json, jsonList_eq]
    exact .arr (List.forall_mem_map.2 ih)
  | dict _ _ ih =>
    rw [Val.json, jsonItems_eq, insertionSort_map, List.map_map]
    refine .obj (List.forall_mem_map.2 fun p hp => ?_)
    exact ih p ((List.perm_insertionSort _ _).mem_iff.1 hp)

/-- **A payload is read back** as the event with its dicts sorted by key. -/
theorem loads_dumps {v : Val} (hv : Loaded repr v) : loads repr v.dumps = some v.sorted := by
  have hread := Json.read_print inverts_unescape (compact_json hv)
  rw [← dumps_eq_print] at hread
  rw [loads, hread, Option.bind_some, toVal_json hv]

end BlueskyTrends
