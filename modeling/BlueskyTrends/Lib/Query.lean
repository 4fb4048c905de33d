import Mathlib.Data.List.TakeWhile
import Mathlib.Tactic

/-!
# Query strings

The `application/x-www-form-urlencoded` text of a list of named values, over bytes, and its reader:
pairs split at `&`, names ended by the first `=`, `+` for a blank, `%XX` for a byte.

* `unquote_quotePlus`: a component is read back.
* `parse_urlencode`: **the pairs are read back**, in their order, a name as often as it stands
  there.
* `query_url`: the query of a URL that had none before.
-/

namespace Query

abbrev Bytes := List UInt8

/-! ## Writing -/

/-- The characters that stand for themselves. -/
def unreserved (c : Char) : Bool :=
  ('A' ≤ c && c ≤ 'Z') || ('a' ≤ c && c ≤ 'z') || ('0' ≤ c && c ≤ '9') || c = '_' || c = '.' || c = '-' || c = '~'

/-- A hexadecimal digit, in upper case. -/
def hexDigit (n : ℕ) : Char := n.digitChar.toUpper

def quoteByte (b : UInt8) : List Char :=
  let c := Char.ofNat b.toNat
  if unreserved c then [c]
  else if c = ' ' then ['+']
  else ['%', hexDigit (b.toNat / 16), hexDigit (b.toNat % 16)]

def quotePlus (s : Bytes) : List Char := s.flatMap quoteByte

def writePair (p : Bytes × Bytes) : List Char := quotePlus p.1 ++ '=' :: quotePlus p.2

def urlencode (params : List (Bytes × Bytes)) : List Char := ['&'].intercalate (params.map writePair)

/-! ## Reading -/

def hexValue (c : Char) : Option ℕ :=
  if c.isDigit then some (c.toNat - 48)
  else if 'A' ≤ c && c ≤ 'F' then some (c.toNat - 55)
  else if 'a' ≤ c && c ≤ 'f' then some (c.toNat - 87)
  else none

def unquote : List Char → Option Bytes
  | [] => some []
  | c :: cs =>
    if c = '%' then match cs with
      | a :: b :: cs => do
        let high ← hexValue a
        let low ← hexValue b
        let rest ← unquote cs
        return UInt8.ofNat (16 * high + low) :: rest
      | _ => none
    -- a URL is ASCII text
    else if 128 ≤ c.toNat then none
    else (unquote cs).map fun rest => (if c = '+' then 32 else UInt8.ofNat c.toNat) :: rest

def readPair (part : List Char) : Option (Bytes × Bytes) := do
  let k ← unquote (part.takeWhile (· ≠ '='))
  let v ← unquote ((part.dropWhile (· ≠ '=')).drop 1)
  return (k, v)

/-- The pairs of a query; empty parts are passed over. -/
def parse (query : List Char) : Option (List (Bytes × Bytes)) :=
  ((query.splitOn '&').filter (· ≠ [])).mapM readPair

/-- The query of a URL: between its first `?` and its fragment. -/
def query (url : List Char) : List Char := ((url.takeWhile (· ≠ '#')).dropWhile (· ≠ '?')).drop 1

/-! ## A component -/

variable {s : Bytes} {b : UInt8} {c : Char} {p : Bytes × Bytes} {params params' : List (Bytes × Bytes)}
  {base cs rest : List Char}

theorem hexValue_hexDigit {n : ℕ} (hn : n < 16) : hexValue (hexDigit n) = some n := by
  interval_cases n <;> decide

theorem unreserved_hexDigit {n : ℕ} (hn : n < 16) : unreserved (hexDigit n) := by
  interval_cases n <;> decide

theorem toNat_byte (b : UInt8) : (Char.ofNat b.toNat).toNat = b.toNat := by
  have hb : b.toNat < 256 := b.toNat_lt
  have hvalid : b.toNat.isValidChar := Or.inl (by omega)
  rw [Char.ofNat, dif_pos hvalid]
  rfl

theorem unreserved_lt (h : unreserved c) : c.toNat < 128 := by
  simp only [unreserved, Bool.or_eq_true, Bool.and_eq_true, decide_eq_true_eq, Char.le_def,
    UInt32.le_iff_toNat_le] at h
  have hval : c.val.toNat = c.toNat := rfl
  have hZ : 'Z'.val.toNat = 90 := rfl
  have hz : 'z'.val.toNat = 122 := rfl
  have h9 : '9'.val.toNat = 57 := rfl
  rcases h with (((((h | h) | h) | rfl) | rfl) | rfl) | rfl
  · omega
  · omega
  · omega
  all_goals decide

/-- A reserved character is none of them. -/
theorem unreserved_ne {d : Char} (h : unreserved c) (hd : unreserved d = false) : c ≠ d := by
  rintro rfl
  rw [hd] at h
  cases h

theorem unquote_char (hlt : c.toNat < 128) (hc : c ≠ '%') (rest : List Char) :
    unquote (c :: rest) = (unquote rest).map fun s => (if c = '+' then 32 else UInt8.ofNat c.toNat) :: s := by
  conv_lhs => unfold unquote
  rw [if_neg hc, if_neg (by omega)]

theorem unquote_hex {m n : ℕ} (hm : m < 16) (hn : n < 16) (rest : List Char) :
    unquote ('%' :: hexDigit m :: hexDigit n :: rest) =
      (unquote rest).map fun s => UInt8.ofNat (16 * m + n) :: s := by
  rw [unquote, if_pos rfl]
  simp only [hexValue_hexDigit hm, hexValue_hexDigit hn, Option.bind_eq_bind, Option.bind_some]
  cases unquote rest with
  | none => rfl
  | some s => rfl

/-- A byte is read back. -/
theorem unquote_quoteByte (b : UInt8) (rest : List Char) :
    unquote (quoteByte b ++ rest) = (unquote rest).map fun s => b :: s := by
  have hb : b.toNat < 256 := b.toNat_lt
  unfold quoteByte
  simp only
  split
  · rename_i hc
    rw [List.singleton_append, unquote_char (unreserved_lt hc) (unreserved_ne hc (by decide)),
      if_neg (unreserved_ne hc (by decide)), toNat_byte, UInt8.ofNat_toNat]
  split
  · rename_i hblank
    -- a blank is the one byte written by another character
    have hvalue : b = 32 := by
      have hnat := congrArg Char.toNat hblank
      rw [toNat_byte] at hnat
      exact UInt8.toNat_inj.1 hnat
    rw [hvalue, List.singleton_append, unquote_char (by decide) (by decide), if_pos rfl]
  · have hmod : 16 * (b.toNat / 16) + b.toNat % 16 = b.toNat := Nat.div_add_mod _ _
    rw [List.cons_append, List.cons_append, List.cons_append, List.nil_append,
      unquote_hex (by omega) (Nat.mod_lt _ (by omega)), hmod, UInt8.ofNat_toNat]

/-- **A component is read back.** -/
theorem unquote_quotePlus (s : Bytes) : unquote (quotePlus s) = some s := by
  induction s with
  | nil => rfl
  | cons b s ih =>
    rw [quotePlus, List.flatMap_cons, unquote_quoteByte]
    change (unquote (quotePlus s)).map _ = _
    rw [ih]
    rfl

/-- What a component is written with. -/
theorem mem_quotePlus (h : c ∈ quotePlus s) : unreserved c ∨ c = '+' ∨ c = '%' := by
  obtain ⟨b, -, hc⟩ := List.mem_flatMap.1 h
  have hb : b.toNat < 256 := b.toNat_lt
  unfold quoteByte at hc
  simp only at hc
  split at hc
  · obtain rfl := List.mem_singleton.1 hc
    exact Or.inl ‹_›
  split at hc
  · exact Or.inr (Or.inl (List.mem_singleton.1 hc))
  · simp only [List.mem_cons, List.not_mem_nil, or_false] at hc
    rcases hc with hc | hc | hc
    · exact Or.inr (Or.inr hc)
    · rw [hc]
      exact Or.inl (unreserved_hexDigit (by omega))
    · rw [hc]
      exact Or.inl (unreserved_hexDigit (Nat.mod_lt _ (by omega)))

/-- A character that delimits is in no component. -/
theorem not_mem_quotePlus (hc : unreserved c = false) (hp : c ≠ '+') (hh : c ≠ '%') : c ∉ quotePlus s := by
  intro h
  rcases mem_quotePlus h with hu | hu | hu
  · exact unreserved_ne hu hc rfl
  · exact hp hu
  · exact hh hu

/-! ## The pairs -/

theorem not_mem_writePair (hc : unreserved c = false) (hp : c ≠ '+') (hh : c ≠ '%') (he : c ≠ '=') :
    c ∉ writePair p := by
  intro h
  rcases List.mem_append.1 h with h | h
  · exact not_mem_quotePlus hc hp hh h
  rcases List.mem_cons.1 h with h | h
  · exact he h
  · exact not_mem_quotePlus hc hp hh h

theorem readPair_writePair (p : Bytes × Bytes) : readPair (writePair p) = some p := by
  have hname : ∀ c ∈ quotePlus p.1, decide (c ≠ '=') = true := by
    intro c hc
    rw [decide_eq_true_eq]
    rintro rfl
    exact not_mem_quotePlus (by decide) (by decide) (by decide) hc
  have htake : (writePair p).takeWhile (· ≠ '=') = quotePlus p.1 := by
    rw [writePair, List.takeWhile_append_of_pos hname]
    simp
  have hdrop : (writePair p).dropWhile (· ≠ '=') = '=' :: quotePlus p.2 := by
    rw [writePair, List.dropWhile_append_of_pos hname]
    simp
  rw [readPair, htake, hdrop, List.drop_one, List.tail_cons, unquote_quotePlus, unquote_quotePlus]
  rfl

/-- **The pairs are read back.** -/
theorem parse_urlencode (params : List (Bytes × Bytes)) : parse (urlencode params) = some params := by
  have hread : (params.map writePair).mapM readPair = some params := by
    induction params with
    | nil => rfl
    | cons p params ih =>
      rw [List.map_cons, List.mapM_cons, readPair_writePair, ih]
      rfl
  have hnonempty : (params.map writePair).filter (· ≠ []) = params.map writePair := by
    rw [List.filter_eq_self]
    intro part hpart
    obtain ⟨p, -, rfl⟩ := List.mem_map.1 hpart
    simp [writePair]
  have hsplit : ((urlencode params).splitOn '&').filter (· ≠ []) = params.map writePair := by
    cases params with
    | nil => decide
    | cons p rest =>
      rw [urlencode, List.splitOn_intercalate, hnonempty]
      · intro part hpart
        obtain ⟨p, -, rfl⟩ := List.mem_map.1 hpart
        exact not_mem_writePair (by decide) (by decide) (by decide) (by decide)
      · exact List.cons_ne_nil _ _
  rw [parse, hsplit, hread]

/-! ## The URL -/

theorem not_mem_urlencode (hc : unreserved c = false) (hp : c ≠ '+') (hh : c ≠ '%') (he : c ≠ '=') (ha : c ≠ '&') :
    c ∉ urlencode params := by
  unfold urlencode
  induction params with
  | nil => simp
  | cons p rest ih =>
    have hpair : c ∉ writePair p := not_mem_writePair hc hp hh he
    cases rest with
    | nil => simpa using hpair
    | cons q rest =>
      rw [List.map_cons, List.map_cons, List.intercalate_cons_cons]
      simp only [List.mem_append, List.mem_singleton, not_or]
      exact ⟨⟨hpair, ha⟩, ih⟩

/-- **The query of a URL that had none before.** -/
theorem query_url (hq : '?' ∉ base) (hf : '#' ∉ base) (params : List (Bytes × Bytes)) :
    query (base ++ '?' :: urlencode params) = urlencode params := by
  have hfragment : ∀ c ∈ base ++ '?' :: urlencode params, decide (c ≠ '#') = true := by
    intro c hc
    rw [decide_eq_true_eq]
    rintro rfl
    rcases List.mem_append.1 hc with hc | hc
    · exact hf hc
    rcases List.mem_cons.1 hc with hc | hc
    · exact absurd hc (by decide)
    · exact not_mem_urlencode (by decide) (by decide) (by decide) (by decide) (by decide) hc
  have hbase : ∀ c ∈ base, decide (c ≠ '?') = true := by
    intro c hc
    rw [decide_eq_true_eq]
    rintro rfl
    exact hq hc
  have hwhole : (base ++ '?' :: urlencode params).takeWhile (fun c => decide (c ≠ '#')) = base ++ '?' :: urlencode params :=
    List.takeWhile_eq_self_iff.2 hfragment
  rw [query, hwhole, List.dropWhile_append_of_pos hbase]
  simp

end Query
