import Mathlib.Tactic

/-!
# JSON text

JSON values and the text they are written as, without white space. A value can be read back from its text:
two values with the same text are the same, also when something follows that cannot belong to them.

The texts of numbers and of `null`, `true` and `false` are atoms, any text without a delimiter. How a
character inside a string is written is a parameter, a code of which none is the start of another.

* `quoted_inj`: a string ends where its text says.
* `listed_inj`: so does a list of texts between brackets.
* `print_inj`: **unique readability**.
-/

namespace Json

/-- A JSON value: an atom by its text, a string, an array, an object by its members in order. -/
inductive Value where
  | atom (text : List Char)
  | str (s : List Char)
  | arr (xs : List Value)
  | obj (members : List (List Char × Value))

def quote : Char := Char.ofNat 34
def openBrace : Char := Char.ofNat 123
def closeBrace : Char := Char.ofNat 125

/-- A character of an atom. -/
def plain (c : Char) : Bool :=
  !(c = quote || c = '[' || c = ']' || c = openBrace || c = closeBrace || c = ',' || c = ':')

/-- How characters are written inside a string. -/
structure Escape where
  code : Char → List Char
  unquoted : ∀ c, ∃ x xs, code c = x :: xs ∧ x ≠ quote
  prefixFree : ∀ {c d a b}, code c ++ a = code d ++ b → c = d

/-- A string between quotation marks. -/
def quoted (E : Escape) (s : List Char) : List Char := quote :: (s.flatMap E.code ++ [quote])

/-- Texts separated by commas, after an opening bracket and up to the closing one. -/
def tail (close : Char) : List (List Char) → List Char
  | [] => [close]
  | t :: ts => ',' :: (t ++ tail close ts)

def listed (close : Char) : List (List Char) → List Char
  | [] => [close]
  | t :: ts => t ++ tail close ts

theorem listed_cons (close : Char) (t u : List Char) (ts : List (List Char)) :
    listed close (t :: u :: ts) = t ++ ',' :: listed close (u :: ts) := rfl

/-- The texts are separated by commas and followed by the bracket. -/
theorem listed_eq (close : Char) (ts : List (List Char)) :
    listed close ts = [','].intercalate ts ++ [close] := by
  induction ts with
  | nil => rfl
  | cons t ts ih =>
    cases ts with
    | nil => simp [listed, tail, List.intercalate]
    | cons u ts =>
      rw [listed_cons, ih]
      simp [List.intercalate]

mutual

/-- The text of a value. -/
def print (E : Escape) : Value → List Char
  | .atom text => text
  | .str s => quoted E s
  | .arr xs => '[' :: listed ']' (printElems E xs)
  | .obj members => openBrace :: listed closeBrace (printMembers E members)

def printElems (E : Escape) : List Value → List (List Char)
  | [] => []
  | x :: xs => print E x :: printElems E xs

def printMembers (E : Escape) : List (List Char × Value) → List (List Char)
  | [] => []
  | (k, x) :: xs => (quoted E k ++ ':' :: print E x) :: printMembers E xs

end

/-- The text of a member of an object. -/
def printMember (E : Escape) (m : List Char × Value) : List Char := quoted E m.1 ++ ':' :: print E m.2

variable {E : Escape}

theorem printElems_eq (xs : List Value) : printElems E xs = xs.map (print E) := by
  induction xs with
  | nil => rw [printElems]; rfl
  | cons x xs ih => rw [printElems, ih]; rfl

theorem printMembers_eq (xs : List (List Char × Value)) :
    printMembers E xs = xs.map (printMember E) := by
  induction xs with
  | nil => rw [printMembers]; rfl
  | cons x xs ih => rw [printMembers, ih]; rfl

/-- Induction over a value: an array by its elements, an object by its members. -/
theorem Value.ind {P : Value → Prop} (hatom : ∀ text, P (.atom text)) (hstr : ∀ s, P (.str s))
    (harr : ∀ xs, (∀ x ∈ xs, P x) → P (.arr xs))
    (hobj : ∀ members, (∀ m ∈ members, P m.2) → P (.obj members)) : ∀ v, P v
  | .atom text => hatom text
  | .str s => hstr s
  | .arr xs => harr xs fun x _ => Value.ind hatom hstr harr hobj x
  | .obj members => hobj members fun m _ => Value.ind hatom hstr harr hobj m.2
termination_by v => sizeOf v
decreasing_by
  · have := List.sizeOf_lt_of_mem ‹x ∈ xs›
    simp only [Value.arr.sizeOf_spec]
    omega
  · have h1 := List.sizeOf_lt_of_mem ‹m ∈ members›
    have h2 : sizeOf m.2 < sizeOf m := by
      cases m
      simp only [Prod.mk.sizeOf_spec]
      omega
    simp only [Value.obj.sizeOf_spec]
    omega

/-! ## Where a text ends -/

/-- Nothing follows, or something that ends a value. -/
def Ends (a : List Char) : Prop := ∀ c ∈ a.head?, c = ',' ∨ c = ']' ∨ c = closeBrace

theorem ends_nil : Ends [] := by
  intro c hc
  cases hc

theorem ends_cons {c : Char} {a : List Char} (h : c = ',' ∨ c = ']' ∨ c = closeBrace) : Ends (c :: a) := by
  intro d hd
  obtain rfl := Option.some.inj hd
  exact h

/-- An atom is what stands before the first delimiter. -/
theorem atom_inj {t u a b : List Char} (ht : ∀ c ∈ t, plain c) (hu : ∀ c ∈ u, plain c) (ha : Ends a)
    (hb : Ends b) (h : t ++ a = u ++ b) : t = u ∧ a = b := by
  have htake : ∀ {t a : List Char}, (∀ c ∈ t, plain c) → Ends a → (t ++ a).takeWhile plain = t := by
    intro t a ht ha
    rw [List.takeWhile_append_of_pos ht]
    cases a with
    | nil => simp
    | cons c a =>
      have hc : plain c = false := by
        rcases ha c rfl with rfl | rfl | rfl <;> decide
      rw [List.takeWhile_cons, hc]
      simp
  have htu : t = u := by
    rw [← htake ht ha, h, htake hu hb]
  subst htu
  exact ⟨rfl, List.append_cancel_left h⟩

/-- **A string ends where its text says.** -/
theorem quoted_inj {s t a b : List Char} (h : quoted E s ++ a = quoted E t ++ b) : s = t ∧ a = b := by
  have hbody : s.flatMap E.code ++ quote :: a = t.flatMap E.code ++ quote :: b := by
    simpa [quoted] using h
  clear h
  induction s generalizing t with
  | nil =>
    cases t with
    | nil => exact ⟨rfl, (List.cons.inj hbody).2⟩
    | cons d t =>
      obtain ⟨x, xs, hx, hne⟩ := E.unquoted d
      rw [List.flatMap_cons, hx] at hbody
      exact absurd (List.cons.inj hbody).1.symm hne
  | cons c s ih =>
    cases t with
    | nil =>
      obtain ⟨x, xs, hx, hne⟩ := E.unquoted c
      rw [List.flatMap_cons, hx] at hbody
      exact absurd (List.cons.inj hbody).1 hne
    | cons d t =>
      rw [List.flatMap_cons, List.flatMap_cons, List.append_assoc, List.append_assoc] at hbody
      obtain rfl := E.prefixFree hbody
      obtain ⟨rfl, rfl⟩ := ih (List.append_cancel_left hbody)
      exact ⟨rfl, rfl⟩

/-- Two texts that cannot be told apart from their start are the same, and so is what follows. -/
def Readable (t u : List Char) : Prop := ∀ a b, Ends a → Ends b → t ++ a = u ++ b → t = u ∧ a = b

variable {close : Char}

theorem ends_tail (hclose : close = ']' ∨ close = closeBrace) (ts : List (List Char)) (a : List Char) :
    Ends (tail close ts ++ a) := by
  cases ts with
  | nil => exact ends_cons (Or.inr hclose)
  | cons t ts => exact ends_cons (Or.inl rfl)

theorem tail_inj (hclose : close = ']' ∨ close = closeBrace) {ts us : List (List Char)} {a b : List Char}
    (hread : ∀ t ∈ ts, ∀ u ∈ us, Readable t u) (h : tail close ts ++ a = tail close us ++ b) :
    ts = us ∧ a = b := by
  have hcomma : close ≠ ',' := by rcases hclose with rfl | rfl <;> decide
  induction ts generalizing us with
  | nil =>
    cases us with
    | nil => exact ⟨rfl, (List.cons.inj h).2⟩
    | cons u us => exact absurd (List.cons.inj h).1 hcomma
  | cons t ts ih =>
    cases us with
    | nil => exact absurd (List.cons.inj h).1.symm hcomma
    | cons u us =>
      have htexts : t ++ (tail close ts ++ a) = u ++ (tail close us ++ b) := by
        simpa [tail] using h
      obtain ⟨rfl, hrest⟩ := hread t List.mem_cons_self u List.mem_cons_self _ _ (ends_tail hclose ts a)
        (ends_tail hclose us b) htexts
      obtain ⟨rfl, rfl⟩ := ih (fun t ht u hu =>
        hread t (List.mem_cons_of_mem _ ht) u (List.mem_cons_of_mem _ hu)) hrest
      exact ⟨rfl, rfl⟩

/-- **A list of texts ends at its bracket**, where no text starts with one. -/
theorem listed_inj (hclose : close = ']' ∨ close = closeBrace) {ts us : List (List Char)} {a b : List Char}
    (hread : ∀ t ∈ ts, ∀ u ∈ us, Readable t u) (ht : ∀ t ∈ ts, ∃ x xs, t = x :: xs ∧ x ≠ close)
    (hu : ∀ u ∈ us, ∃ x xs, u = x :: xs ∧ x ≠ close) (h : listed close ts ++ a = listed close us ++ b) :
    ts = us ∧ a = b := by
  cases ts with
  | nil =>
    cases us with
    | nil => exact ⟨rfl, (List.cons.inj h).2⟩
    | cons u us =>
      obtain ⟨x, xs, rfl, hne⟩ := hu u List.mem_cons_self
      exact absurd (List.cons.inj h).1.symm hne
  | cons t ts =>
    cases us with
    | nil =>
      obtain ⟨x, xs, rfl, hne⟩ := ht t List.mem_cons_self
      exact absurd (List.cons.inj h).1 hne
    | cons u us =>
      have htexts : t ++ (tail close ts ++ a) = u ++ (tail close us ++ b) := by
        simpa [listed] using h
      obtain ⟨rfl, hrest⟩ := hread t List.mem_cons_self u List.mem_cons_self _ _ (ends_tail hclose ts a)
        (ends_tail hclose us b) htexts
      obtain ⟨rfl, rfl⟩ := tail_inj hclose (fun t ht u hu =>
        hread t (List.mem_cons_of_mem _ ht) u (List.mem_cons_of_mem _ hu)) hrest
      exact ⟨rfl, rfl⟩

/-! ## Unique readability -/

/-- Every atom is one: a text without a delimiter. -/
inductive WellFormed : Value → Prop
  | atom {text : List Char} (hne : text ≠ []) (hplain : ∀ c ∈ text, plain c) : WellFormed (.atom text)
  | str (s : List Char) : WellFormed (.str s)
  | arr {xs : List Value} (h : ∀ x ∈ xs, WellFormed x) : WellFormed (.arr xs)
  | obj {members : List (List Char × Value)} (h : ∀ m ∈ members, WellFormed m.2) :
      WellFormed (.obj members)

/-- The delimiter a text starts with. -/
def Value.opening : Value → Option Char
  | .atom _ => none
  | .str _ => some quote
  | .arr _ => some '['
  | .obj _ => some openBrace

variable {v w : Value}

theorem print_head (hv : WellFormed v) : ∃ c cs, print E v = c :: cs ∧
    (v.opening = some c ∨ v.opening = none ∧ plain c) := by
  cases hv with
  | @atom text hne hplain =>
    obtain ⟨c, cs, rfl⟩ := List.exists_cons_of_ne_nil hne
    exact ⟨c, cs, by rw [print], Or.inr ⟨rfl, hplain c List.mem_cons_self⟩⟩
  | str s => exact ⟨quote, _, by rw [print, quoted], Or.inl rfl⟩
  | arr h => exact ⟨'[', _, by rw [print], Or.inl rfl⟩
  | obj h => exact ⟨openBrace, _, by rw [print], Or.inl rfl⟩

/-- A text tells from its start what kind of value it is of. -/
theorem opening_eq {a b : List Char} (hv : WellFormed v) (hw : WellFormed w)
    (h : print E v ++ a = print E w ++ b) : v.opening = w.opening := by
  obtain ⟨c, cs, hc, hcv⟩ := print_head (E := E) hv
  obtain ⟨d, ds, hd, hdw⟩ := print_head (E := E) hw
  rw [hc, hd] at h
  obtain rfl := (List.cons.inj h).1
  have hdelim : ∀ v : Value, v.opening = some c → plain c = false := by
    intro v hv
    cases v with
    | atom => cases hv
    | str | arr | obj =>
      obtain rfl := Option.some.inj hv
      decide
  rcases hcv with hcv | ⟨hcv, hp⟩
  · rcases hdw with hdw | ⟨-, hp⟩
    · rw [hcv, hdw]
    · rw [hdelim v hcv] at hp
      cases hp
  · rcases hdw with hdw | ⟨hdw, -⟩
    · rw [hdelim w hdw] at hp
      cases hp
    · rw [hcv, hdw]

/-- No text starts with a closing bracket. -/
theorem print_unclosed {close : Char} (hclose : close = ']' ∨ close = closeBrace) (hv : WellFormed v) :
    ∃ x xs, print E v = x :: xs ∧ x ≠ close := by
  obtain ⟨c, cs, hc, h⟩ := print_head (E := E) hv
  refine ⟨c, cs, hc, ?_⟩
  rintro rfl
  rcases h with h | ⟨-, h⟩
  · cases v with
    | atom => cases h
    | str | arr | obj =>
      have hc := Option.some.inj h
      rcases hclose with rfl | rfl <;> exact absurd hc (by decide)
  · rcases hclose with rfl | rfl <;> exact absurd h (by decide)

theorem map_inj_of_mem {α β : Type*} {f : α → β} {xs ys : List α}
    (h : ∀ x ∈ xs, ∀ y ∈ ys, f x = f y → x = y) (heq : xs.map f = ys.map f) : xs = ys := by
  induction xs generalizing ys with
  | nil => exact (List.map_eq_nil_iff.1 heq.symm).symm
  | cons x xs ih =>
    cases ys with
    | nil => cases heq
    | cons y ys =>
      obtain ⟨hxy, hrest⟩ := List.cons.inj heq
      have htail := ih (fun x hx y hy => h x (List.mem_cons_of_mem _ hx) y (List.mem_cons_of_mem _ hy)) hrest
      rw [h x List.mem_cons_self y List.mem_cons_self hxy, htail]

theorem printMember_inj {m n : List Char × Value} {a b : List Char}
    (hread : Readable (print E m.2) (print E n.2)) (ha : Ends a) (hb : Ends b)
    (h : printMember E m ++ a = printMember E n ++ b) :
    m.1 = n.1 ∧ print E m.2 = print E n.2 ∧ a = b := by
  have htexts : quoted E m.1 ++ (':' :: (print E m.2 ++ a)) = quoted E n.1 ++ (':' :: (print E n.2 ++ b)) := by
    simpa [printMember] using h
  obtain ⟨hkey, hrest⟩ := quoted_inj htexts
  obtain ⟨hval, hab⟩ := hread a b ha hb (List.cons.inj hrest).2
  exact ⟨hkey, hval, hab⟩

/-- **Unique readability.** A value is determined by its text, whatever follows that cannot belong to it. -/
theorem print_inj : ∀ v w : Value, WellFormed v → WellFormed w → ∀ a b, Ends a → Ends b →
    print E v ++ a = print E w ++ b → v = w ∧ a = b := by
  intro v
  induction v using Value.ind with
  | hatom text =>
    intro w hv hw a b ha hb h
    have hopen := opening_eq hv hw h
    cases hw with
    | @atom text' _ hplain' =>
      cases hv with
      | atom _ hplain =>
        rw [print, print] at h
        obtain ⟨rfl, rfl⟩ := atom_inj hplain hplain' ha hb h
        exact ⟨rfl, rfl⟩
    | str | arr | obj => cases hopen
  | hstr s =>
    intro w hv hw a b ha hb h
    have hopen := opening_eq hv hw h
    cases hw with
    | str s' =>
      rw [print, print] at h
      obtain ⟨rfl, rfl⟩ := quoted_inj h
      exact ⟨rfl, rfl⟩
    | atom => cases hopen
    | arr | obj => exact absurd (Option.some.inj hopen) (by decide)
  | harr xs ih =>
    intro w hv hw a b ha hb h
    have hopen := opening_eq hv hw h
    cases hw with
    | @arr ys hys =>
      cases hv with
      | arr hxs =>
        have helems : ∀ x ∈ xs, ∀ y ∈ ys, Readable (print E x) (print E y) := by
          intro x hx y hy a b ha hb h
          obtain ⟨rfl, rfl⟩ := ih x hx y (hxs x hx) (hys y hy) a b ha hb h
          exact ⟨rfl, rfl⟩
        have hopenx : ∀ x ∈ xs, ∃ c cs, print E x = c :: cs ∧ c ≠ ']' := fun x hx =>
          print_unclosed (Or.inl rfl) (hxs x hx)
        have hopeny : ∀ y ∈ ys, ∃ c cs, print E y = c :: cs ∧ c ≠ ']' := fun y hy =>
          print_unclosed (Or.inl rfl) (hys y hy)
        rw [print, print, List.cons_append, List.cons_append, printElems_eq, printElems_eq] at h
        obtain ⟨htexts, rfl⟩ := listed_inj (Or.inl rfl)
          (List.forall_mem_map.2 fun x hx => List.forall_mem_map.2 (helems x hx))
          (List.forall_mem_map.2 hopenx) (List.forall_mem_map.2 hopeny) (List.cons.inj h).2
        obtain rfl := map_inj_of_mem (fun x hx y hy hxy =>
          (ih x hx y (hxs x hx) (hys y hy) [] [] ends_nil ends_nil (by simpa using hxy)).1) htexts
        exact ⟨rfl, rfl⟩
    | atom => cases hopen
    | str | obj => exact absurd (Option.some.inj hopen) (by decide)
  | hobj members ih =>
    intro w hv hw a b ha hb h
    have hopen := opening_eq hv hw h
    cases hw with
    | @obj others hothers =>
      cases hv with
      | obj hmembers =>
        have hvalues : ∀ m ∈ members, ∀ n ∈ others, Readable (print E m.2) (print E n.2) := by
          intro m hm n hn a b ha hb h
          obtain ⟨hval, rfl⟩ := ih m hm n.2 (hmembers m hm) (hothers n hn) a b ha hb h
          exact ⟨by rw [hval], rfl⟩
        have hread : ∀ m ∈ members, ∀ n ∈ others, Readable (printMember E m) (printMember E n) := by
          intro m hm n hn a b ha hb h
          obtain ⟨hkey, hval, rfl⟩ := printMember_inj (hvalues m hm n hn) ha hb h
          exact ⟨by rw [printMember, printMember, hkey, hval], rfl⟩
        have hunclosed : ∀ m : List Char × Value, ∃ x xs, printMember E m = x :: xs ∧ x ≠ closeBrace :=
          fun m => ⟨quote, _, rfl, by decide⟩
        rw [print, print, List.cons_append, List.cons_append, printMembers_eq, printMembers_eq] at h
        obtain ⟨htexts, rfl⟩ := listed_inj (Or.inr rfl)
          (List.forall_mem_map.2 fun m hm => List.forall_mem_map.2 (hread m hm))
          (List.forall_mem_map.2 fun m _ => hunclosed m) (List.forall_mem_map.2 fun m _ => hunclosed m)
          (List.cons.inj h).2
        obtain rfl := map_inj_of_mem (fun m hm n hn hmn => by
          obtain ⟨hkey, hval, -⟩ := printMember_inj (hvalues m hm n hn) ends_nil ends_nil
            (congrArg (· ++ []) hmn)
          exact Prod.ext hkey (ih m hm n.2 (hmembers m hm) (hothers n hn) [] [] ends_nil ends_nil
            (by rw [hval])).1) htexts
        exact ⟨rfl, rfl⟩
    | atom => cases hopen
    | str | arr => exact absurd (Option.some.inj hopen) (by decide)

/-- **A value is determined by its text.** -/
theorem print_injective (hv : WellFormed v) (hw : WellFormed w) : print E v = print E w ↔ v = w := by
  constructor
  · intro h
    exact (print_inj v w hv hw [] [] ends_nil ends_nil (by rw [h])).1
  · intro h
    rw [h]

end Json
