import BlueskyTrends.Lib.Json
import BlueskyTrends.Python

/-!
# What a JSON payload says

`json.dumps` with sorted keys writes the text of a JSON value: of a datetime its `str`, of a dict its items by
key, of a number its numeral.

* `padDigits_inj`, `dumpsEscape`: no escape of a character is the start of another.
* `dumps_eq_print`: what `json.dumps` writes.
* `dumps_eq_iff`: two values have the same text exactly when they have the same JSON value.
-/

namespace BlueskyTrends

/-! ## Digits -/

/-- The digit a character stands for. -/
def digitValue (c : Char) : ℕ := if c.toNat < 58 then c.toNat - 48 else c.toNat - 87

theorem digitValue_digitChar {n : ℕ} (hn : n < 16) : digitValue n.digitChar = n := by
  interval_cases n <;> decide

/-- The number that a list of digits stands for. -/
def digitsValue (b : ℕ) (cs : List Char) : ℕ := cs.foldl (fun n c => b * n + digitValue c) 0

theorem digitsValue_toDigits {b : ℕ} (hb : 1 < b) (hb' : b ≤ 16) (n : ℕ) :
    digitsValue b (Nat.toDigits b n) = n := by
  induction n using Nat.strong_induction_on with
  | _ n ih =>
    rw [Nat.toDigits_eq_if hb]
    split
    · rename_i hn
      simp [digitsValue, digitValue_digitChar (hn.trans_le hb')]
    · rename_i hn
      have hdiv : n / b < n := Nat.div_lt_self (by omega) hb
      have hmod : n % b < 16 := (Nat.mod_lt n (by omega)).trans_le hb'
      have hrec := ih (n / b) hdiv
      unfold digitsValue at hrec ⊢
      rw [List.foldl_append, hrec]
      simp [digitValue_digitChar hmod, Nat.div_add_mod]

theorem digitsValue_zeros (b k : ℕ) (cs : List Char) :
    digitsValue b (List.replicate k '0' ++ cs) = digitsValue b cs := by
  induction k with
  | zero => simp
  | succ k ih =>
    rw [← ih]
    simp [digitsValue, List.replicate_succ, digitValue]

theorem toList_padDigits (b width n : ℕ) : (padDigits b width n).toList =
    List.replicate (width - (Nat.toDigits b n).length) '0' ++ Nat.toDigits b n := by
  simp [padDigits]

/-- **Padded digits determine the number.** -/
theorem padDigits_inj {m n : ℕ} (h : (padDigits 16 4 m).toList = (padDigits 16 4 n).toList) : m = n := by
  have hvalue : ∀ n, digitsValue 16 (padDigits 16 4 n).toList = n := by
    intro n
    rw [toList_padDigits, digitsValue_zeros, digitsValue_toDigits (by omega) (by omega)]
  rw [← hvalue m, h, hvalue]

theorem length_padDigits {n : ℕ} (hn : n < 65536) : (padDigits 16 4 n).toList.length = 4 := by
  have hlen : (Nat.toDigits 16 n).length ≤ 4 :=
    (Nat.length_toDigits_le_iff (by omega) (by omega)).2 (by omega)
  rw [toList_padDigits]
  simp
  omega

/-! ## The escapes -/

/-- `\uXXXX`. -/
def hexEscape (n : ℕ) : List Char := backslash :: 'u' :: (padDigits 16 4 n).toList

theorem hexEscape_inj {m n : ℕ} {a b : List Char} (hm : m < 65536) (hn : n < 65536)
    (h : hexEscape m ++ a = hexEscape n ++ b) : m = n ∧ a = b := by
  have htail : (padDigits 16 4 m).toList ++ a = (padDigits 16 4 n).toList ++ b := by
    simpa [hexEscape] using h
  obtain ⟨hdigits, hrest⟩ := List.append_inj htail (by rw [length_padDigits hm, length_padDigits hn])
  exact ⟨padDigits_inj hdigits, hrest⟩

/-- The escapes of two characters. -/
def shortEscapes : List (Char × Char) :=
  [(quotation, quotation), (backslash, backslash), ('n', '\n'), ('r', '\r'), ('t', '\t'),
    ('b', Char.ofNat 8), ('f', Char.ofNat 12)]

/-- How a character is written in a string: a short escape, itself, or one or two escapes by number. -/
inductive Written (c : Char) : List Char → Prop
  | short {x : Char} (h : shortEscapes.lookup x = some c) : Written c [backslash, x]
  | plain (hb : c ≠ backslash) (hq : c ≠ quotation) : Written c [c]
  | basic (h : c.toNat < 65536) : Written c (hexEscape c.toNat)
  | pair (h : 65536 ≤ c.toNat) : Written c
      (hexEscape (55296 + (c.toNat - 65536) / 1024) ++ hexEscape (56320 + (c.toNat - 65536) % 1024))

theorem toNat_lt (c : Char) : c.toNat < 55296 ∨ 57343 < c.toNat ∧ c.toNat < 1114112 := by
  have h := c.valid
  simpa [UInt32.isValidChar, Nat.isValidChar] using h

theorem written_dumpsChar (c : Char) : Written c (dumpsChar c).toList := by
  unfold dumpsChar
  simp only
  split
  · rename_i h
    simp only [Bool.or_eq_true, decide_eq_true_eq] at h
    rcases h with rfl | rfl
    · exact .short rfl
    · exact .short rfl
  rename_i hquoted
  simp only [Bool.or_eq_true, decide_eq_true_eq, not_or] at hquoted
  split
  · rename_i h; subst h; exact .short rfl
  split
  · rename_i h; subst h; exact .short rfl
  split
  · rename_i h; subst h; exact .short rfl
  split
  · rename_i h
    obtain rfl : c = Char.ofNat 8 := Char.toNat_inj.1 h
    exact .short rfl
  split
  · rename_i h
    obtain rfl : c = Char.ofNat 12 := Char.toNat_inj.1 h
    exact .short rfl
  split
  · have htext : c.toString.toList = [c] := by simp
    rw [htext]
    exact .plain hquoted.2 hquoted.1
  split
  · rename_i h
    have htext : (String.ofList [backslash, 'u'] ++ padDigits 16 4 c.toNat).toList = hexEscape c.toNat := by
      simp [hexEscape]
    rw [htext]
    exact .basic h
  · rename_i h
    have htext : ∀ n, (String.ofList [backslash, 'u'] ++ padDigits 16 4 n).toList = hexEscape n := by
      intro n
      simp [hexEscape]
    rw [String.toList_append, htext, htext]
    exact .pair (not_lt.1 h)

namespace Written

variable {c d x : Char} {s t a b : List Char} {n : ℕ}

/-- A character that is written as it is opens no escape. -/
theorem plain_inj (hb : c ≠ backslash) (ht : Written d t) (h : [c] ++ a = t ++ b) : c = d := by
  have hhead := fun {y : Char} {ys : List Char} (h : c :: a = y :: ys) => (List.cons.inj h).1
  cases ht with
  | short | basic | pair => exact absurd (hhead h) hb
  | plain => exact hhead h

theorem short_inj (hx : shortEscapes.lookup x = some c) (ht : Written d t)
    (h : [backslash, x] ++ a = t ++ b) : c = d := by
  have hnumber : ∀ {n : ℕ} {b : List Char}, [backslash, x] ++ a ≠ hexEscape n ++ b := by
    intro n b h
    obtain rfl : x = 'u' := (List.cons.inj (List.cons.inj h).2).1
    cases hx
  cases ht with
  | short hy =>
    obtain rfl := (List.cons.inj (List.cons.inj h).2).1
    exact Option.some.inj (hx.symm.trans hy)
  | plain hb => exact absurd (List.cons.inj h).1.symm hb
  | basic => exact absurd h hnumber
  | pair =>
    rw [List.append_assoc] at h
    exact absurd h hnumber

/-- The numbers in a pair are those of no character. -/
theorem basic_inj (hc : c.toNat < 65536) (ht : Written d t) (h : hexEscape c.toNat ++ a = t ++ b) :
    c = d := by
  have hrange := toNat_lt c
  have hd := toNat_lt d
  cases ht with
  | short hx => exact (short_inj hx (.basic hc) h.symm).symm
  | plain hb => exact (plain_inj hb (.basic hc) h.symm).symm
  | basic hd => exact Char.toNat_inj.1 (hexEscape_inj hc hd h).1
  | pair hlarge =>
    rw [List.append_assoc] at h
    have hnumber := (hexEscape_inj hc (by omega) h).1
    omega

theorem pair_inj (hc : 65536 ≤ c.toNat) (ht : Written d t)
    (h : (hexEscape (55296 + (c.toNat - 65536) / 1024) ++ hexEscape (56320 + (c.toNat - 65536) % 1024)) ++ a =
      t ++ b) : c = d := by
  have hrange := toNat_lt c
  have hd := toNat_lt d
  cases ht with
  | short hx => exact (short_inj hx (.pair hc) h.symm).symm
  | plain hb => exact (plain_inj hb (.pair hc) h.symm).symm
  | basic hd => exact (basic_inj hd (.pair hc) h.symm).symm
  | pair hlarge =>
    rw [List.append_assoc, List.append_assoc] at h
    obtain ⟨hhigh, hrest⟩ := hexEscape_inj (by omega) (by omega) h
    have hlow := (hexEscape_inj (by omega) (by omega) hrest).1
    exact Char.toNat_inj.1 (by omega)

/-- **No escape is the start of another.** -/
theorem prefixFree (hs : Written c s) (ht : Written d t) (h : s ++ a = t ++ b) : c = d := by
  cases hs with
  | short hx => exact short_inj hx ht h
  | plain hb => exact plain_inj hb ht h
  | basic hc => exact basic_inj hc ht h
  | pair hc => exact pair_inj hc ht h

theorem unquoted (hs : Written c s) : ∃ x xs, s = x :: xs ∧ x ≠ Json.quote := by
  cases hs with
  | plain _ hq => exact ⟨c, [], rfl, hq⟩
  | short | basic | pair => exact ⟨backslash, _, rfl, by decide⟩

end Written

/-- How `json.dumps` writes the characters of a string. -/
def dumpsEscape : Json.Escape where
  code c := (dumpsChar c).toList
  unquoted c := (written_dumpsChar c).unquoted
  prefixFree h := (written_dumpsChar _).prefixFree (written_dumpsChar _) h

theorem toList_dumpsStr (s : String) : (dumpsStr s).toList = Json.quoted dumpsEscape s.toList := by
  simp [dumpsStr, Json.quoted, String.toList_join, List.flatMap_map, dumpsEscape, quotation, Json.quote]

/-! ## The value of a payload -/

/-- The text of a float. -/
def floatText (repr : String) : String :=
  if repr = "nan" then "NaN" else if repr = "inf" then "Infinity"
  else if repr = "-inf" then "-Infinity" else repr

mutual

/-- The JSON value that `json.dumps` writes. -/
def Val.json : Val → Json.Value
  | .null => .atom "null".toList
  | .bool b => .atom (if b then "true" else "false").toList
  | .int n => .atom (toString n).toList
  | .float r => .atom (floatText r).toList
  | .str s => .str s.toList
  | .list xs => .arr (jsonList xs)
  | .dict items =>
      .obj (((jsonItems items).insertionSort fun a b => a.1 ≤ b.1).map fun p => (p.1.toList, p.2))
  | .datetime t => .str t.toStr.toList

def jsonList : List Val → List Json.Value
  | [] => []
  | x :: xs => x.json :: jsonList xs

def jsonItems : List (String × Val) → List (String × Json.Value)
  | [] => []
  | (k, x) :: xs => (k, x.json) :: jsonItems xs

end

theorem jsonList_eq (xs : List Val) : jsonList xs = xs.map Val.json := by
  induction xs with
  | nil => rw [jsonList]; rfl
  | cons x xs ih => rw [jsonList, ih]; rfl

theorem jsonItems_eq (items : List (String × Val)) : jsonItems items = items.map fun p => (p.1, p.2.json) := by
  induction items with
  | nil => rw [jsonItems]; rfl
  | cons x xs ih => rw [jsonItems, ih]; rfl

theorem dumpsList_eq (xs : List Val) : dumpsList xs = xs.map Val.dumps := by
  induction xs with
  | nil => rw [dumpsList]; rfl
  | cons x xs ih => rw [dumpsList, ih]; rfl

theorem dumpsItems_eq (items : List (String × Val)) :
    dumpsItems items = items.map fun p => (p.1, p.2.dumps) := by
  induction items with
  | nil => rw [dumpsItems]; rfl
  | cons x xs ih => rw [dumpsItems, ih]; rfl

/-- Items are sorted by key whether their values are written yet or not. -/
theorem insertionSort_map {α β : Type} (f : α → β) (items : List (String × α)) :
    (items.map fun p => (p.1, f p.2)).insertionSort (fun a b => a.1 ≤ b.1) =
      (items.insertionSort fun a b => a.1 ≤ b.1).map fun p => (p.1, f p.2) :=
  (List.map_insertionSort (fun a b : String × α => a.1 ≤ b.1) (fun a b : String × β => a.1 ≤ b.1)
    (fun p => (p.1, f p.2)) items fun _ _ _ _ => Iff.rfl).symm

/-- Induction over a value: a list by its elements, a dict by its items. -/
theorem Val.ind {P : Val → Prop} (hnull : P .null) (hbool : ∀ b, P (.bool b)) (hint : ∀ n, P (.int n))
    (hfloat : ∀ r, P (.float r)) (hstr : ∀ s, P (.str s)) (hlist : ∀ xs, (∀ x ∈ xs, P x) → P (.list xs))
    (hdict : ∀ items, (∀ p ∈ items, P p.2) → P (.dict items)) (hdatetime : ∀ t, P (.datetime t)) : ∀ v, P v
  | .null => hnull
  | .bool b => hbool b
  | .int n => hint n
  | .float r => hfloat r
  | .str s => hstr s
  | .list xs => hlist xs fun x _ => Val.ind hnull hbool hint hfloat hstr hlist hdict hdatetime x
  | .dict items => hdict items fun p _ => Val.ind hnull hbool hint hfloat hstr hlist hdict hdatetime p.2
  | .datetime t => hdatetime t
termination_by v => sizeOf v
decreasing_by
  · have := List.sizeOf_lt_of_mem ‹x ∈ xs›
    simp only [Val.list.sizeOf_spec]
    omega
  · have h1 := List.sizeOf_lt_of_mem ‹p ∈ items›
    have h2 : sizeOf p.2 < sizeOf p := by
      cases p
      simp only [Prod.mk.sizeOf_spec]
      omega
    simp only [Val.dict.sizeOf_spec]
    omega

/-- **What `json.dumps` writes.** -/
theorem dumps_eq_print (v : Val) : v.dumps.toList = Json.print dumpsEscape v.json := by
  induction v using Val.ind with
  | hnull => rw [Val.dumps, Val.json, Json.print]
  | hbool b => rw [Val.dumps, Val.json, Json.print]
  | hint n => rw [Val.dumps, Val.json, Json.print]
  | hfloat r => rw [Val.dumps, Val.json, Json.print, floatText]
  | hstr s => rw [Val.dumps, Val.json, Json.print, toList_dumpsStr]
  | hdatetime t => rw [Val.dumps, Val.json, Json.print, toList_dumpsStr]
  | hlist xs ih =>
    have hmap : xs.map (fun x => x.dumps.toList) = xs.map fun x => Json.print dumpsEscape x.json :=
      List.map_congr_left ih
    rw [Val.dumps, Val.json, Json.print, Json.listed_eq, Json.printElems_eq, dumpsList_eq, jsonList_eq,
      List.map_map]
    simp only [String.toList_append, String.toList_intercalate, List.map_map, Function.comp_def, hmap]
    rfl
  | hdict items ih =>
    have hmap : (items.insertionSort fun a b => a.1 ≤ b.1).map
          (fun p => Json.quoted dumpsEscape p.1.toList ++ ':' :: p.2.dumps.toList) =
        (items.insertionSort fun a b => a.1 ≤ b.1).map
          fun p => Json.quoted dumpsEscape p.1.toList ++ ':' :: Json.print dumpsEscape p.2.json := by
      refine List.map_congr_left fun p hp => ?_
      rw [ih p ((List.perm_insertionSort _ _).mem_iff.1 hp)]
    rw [Val.dumps, Val.json, Json.print, Json.listed_eq, Json.printMembers_eq, dumpsItems_eq, jsonItems_eq,
      insertionSort_map, insertionSort_map]
    simp only [String.toList_append, String.toList_intercalate, List.map_map, Function.comp_def,
      toList_dumpsStr, Json.printMember, List.append_assoc]
    rw [← hmap]
    rfl

/-! ## What the text determines -/

/-- The floats in a value are given by numerals, as `repr` writes them. -/
inductive Val.Numeric : Val → Prop
  | null : Numeric .null
  | bool (b : Bool) : Numeric (.bool b)
  | int (n : ℤ) : Numeric (.int n)
  | float {r : String} (hne : r.toList ≠ []) (hplain : ∀ c ∈ r.toList, Json.plain c) : Numeric (.float r)
  | str (s : String) : Numeric (.str s)
  | list {xs : List Val} (h : ∀ x ∈ xs, x.Numeric) : Numeric (.list xs)
  | dict {items : List (String × Val)} (h : ∀ p ∈ items, p.2.Numeric) : Numeric (.dict items)
  | datetime (t : DateTime) : Numeric (.datetime t)

theorem plain_digit {c : Char} (hc : c.isDigit) : Json.plain c := by
  by_contra h
  simp only [Json.plain, Bool.not_eq_true', Bool.not_eq_false, Bool.or_eq_true, decide_eq_true_eq,
    or_assoc] at h
  rcases h with rfl | rfl | rfl | rfl | rfl | rfl | rfl <;> exact absurd hc (by decide)

theorem plain_repr (n : ℕ) : n.repr.toList ≠ [] ∧ ∀ c ∈ n.repr.toList, Json.plain c := by
  have htext : n.repr.toList = Nat.toDigits 10 n := by simp [Nat.repr]
  rw [htext]
  constructor
  · exact List.ne_nil_of_length_pos Nat.length_toDigits_pos
  · intro c hc
    exact plain_digit (Nat.isDigit_of_mem_toDigits (by omega) le_rfl hc)

/-- A numeral is one atom. -/
theorem plain_int (n : ℤ) : (toString n).toList ≠ [] ∧ ∀ c ∈ (toString n).toList, Json.plain c := by
  rw [Int.toString_eq_repr, Int.repr_eq_if]
  split
  · exact plain_repr n.toNat
  · obtain ⟨-, hplain⟩ := plain_repr (-n).toNat
    have htext : ("-" ++ (-n).toNat.repr).toList = '-' :: (-n).toNat.repr.toList := by simp
    rw [htext]
    constructor
    · exact List.cons_ne_nil _ _
    · intro c hc
      rcases List.mem_cons.1 hc with rfl | hc
      · decide
      · exact hplain c hc

/-- A word without a delimiter is one atom. -/
theorem plain_word {t : List Char} (hne : t.isEmpty = false) (hall : t.all Json.plain = true) :
    t ≠ [] ∧ ∀ c ∈ t, Json.plain c := by
  constructor
  · rintro rfl
    cases hne
  · exact List.all_eq_true.1 hall

theorem plain_float {r : String} (hne : r.toList ≠ []) (hplain : ∀ c ∈ r.toList, Json.plain c) :
    (floatText r).toList ≠ [] ∧ ∀ c ∈ (floatText r).toList, Json.plain c := by
  unfold floatText
  split
  · exact plain_word rfl rfl
  split
  · exact plain_word rfl rfl
  split
  · exact plain_word rfl rfl
  · exact ⟨hne, hplain⟩

/-- Every number in a payload is one atom. -/
theorem wellFormed_json {v : Val} (hv : v.Numeric) : Json.WellFormed v.json := by
  induction hv with
  | null =>
    obtain ⟨hne, hplain⟩ := plain_word (t := "null".toList) rfl rfl
    rw [Val.json]
    exact .atom hne hplain
  | bool b =>
    have hword : (if b then "true" else "false").toList ≠ [] ∧
        ∀ c ∈ (if b then "true" else "false").toList, Json.plain c := by
      cases b
      · exact plain_word rfl rfl
      · exact plain_word rfl rfl
    rw [Val.json]
    exact .atom hword.1 hword.2
  | int n => rw [Val.json]; exact .atom (plain_int n).1 (plain_int n).2
  | float hne hplain => rw [Val.json]; exact .atom (plain_float hne hplain).1 (plain_float hne hplain).2
  | str s => rw [Val.json]; exact .str _
  | datetime t => rw [Val.json]; exact .str _
  | list _ ih =>
    rw [Val.json, jsonList_eq]
    exact .arr (List.forall_mem_map.2 ih)
  | dict _ ih =>
    rw [Val.json, jsonItems_eq, insertionSort_map, List.map_map]
    refine .obj (List.forall_mem_map.2 fun p hp => ?_)
    exact ih p ((List.perm_insertionSort _ _).mem_iff.1 hp)

/-- **Two values have the same text exactly when they have the same JSON value.** -/
theorem dumps_eq_iff {v w : Val} (hv : v.Numeric) (hw : w.Numeric) : v.dumps = w.dumps ↔ v.json = w.json := by
  rw [← String.toList_inj, dumps_eq_print, dumps_eq_print]
  exact Json.print_injective (wellFormed_json hv) (wellFormed_json hw)

end BlueskyTrends
