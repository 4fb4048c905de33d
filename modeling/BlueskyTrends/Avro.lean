import BlueskyTrends.Ingest.Parse
import BlueskyTrends.Bronze.Decode

/-!
# Records between ingest and bronze

A model is dumped, written with its schema, read with it and decoded into a bronze row. The Avro library is not
part of this repository: `AvroCodec` is a codec for the types the schemas use, with what is known of it as a
field. A datetime is written as an instant, and a naive one is local time of the host that writes it.

* `readRecord_writeRecord`: a record comes back field by field.
* `archive_eq`: the row of a model, for every codec and every zone.
-/

namespace BlueskyTrends

/-! ## Instants -/

/-- A host's time zone: its offset from UTC at a local wall clock, in microseconds. -/
structure Zone where
  utcoffset : ℤ → ℤ
  bounded : ∀ wall, |utcoffset wall| < 86400000000

/-- A zone that keeps one offset, in hours. -/
def Zone.fixed (hours : ℤ) (h : |hours| < 24) : Zone where
  utcoffset _ := hours * 3600000000
  bounded _ := by
    rw [abs_lt] at h ⊢
    omega

/-- The instant a datetime denotes on a host in zone `z`: a naive one is local time. -/
def DateTime.instant (z : Zone) (t : DateTime) : ℤ := t.wall - t.utcoffset.getD (z.utcoffset t.wall)

/-- The aware datetime in UTC at an instant. -/
def DateTime.ofInstant (instant : ℤ) : DateTime := ⟨instant, some 0⟩

@[simp] theorem DateTime.instant_ofInstant (z : Zone) (i : ℤ) : (DateTime.ofInstant i).instant z = i := by
  simp [DateTime.instant, DateTime.ofInstant]

/-- **An aware datetime denotes one instant everywhere, a naive one does not.** -/
theorem DateTime.instant_const_iff (t : DateTime) :
    (∃ i, ∀ z : Zone, t.instant z = i) ↔ t.utcoffset.isSome := by
  constructor
  · rintro ⟨i, hi⟩
    cases h : t.utcoffset with
    | some o => rfl
    | none =>
      -- one hour apart
      have h0 := hi (.fixed 0 (by decide))
      have h1 := hi (.fixed 1 (by decide))
      simp only [DateTime.instant, h, Option.getD_none, Zone.fixed] at h0 h1
      omega
  · intro h
    obtain ⟨o, ho⟩ := Option.isSome_iff_exists.1 h
    refine ⟨t.wall - o, ?_⟩
    intro z
    rw [DateTime.instant, ho, Option.getD_some]

/-! ## The schemas -/

/-- The types the schemas use. -/
inductive AvroType where
  | string
  | strings
  | timestampMicros
  | nullable (t : AvroType)

/-- The values that can be written with a type. -/
def AvroType.admits : AvroType → Val → Bool
  | .string, .str _ => true
  | .strings, .list xs => xs.all fun x => x.asStr?.isSome
  | .timestampMicros, .datetime _ => true
  | .nullable _, .null => true
  | .nullable t, v => t.admits v
  | _, _ => false

/-- The value that is read of one written on a host in zone `z`. -/
def Zone.restore (z : Zone) : Val → Val
  | .datetime t => .datetime (.ofInstant (t.instant z))
  | v => v

@[simp] theorem Zone.restore_str (z : Zone) (s : String) : z.restore (.str s) = .str s := rfl

@[simp] theorem Zone.restore_datetime (z : Zone) (t : DateTime) :
    z.restore (.datetime t) = .datetime (.ofInstant (t.instant z)) := rfl

/-- Avro encoding: strings, arrays of strings and unions with null come back as they were, a datetime as the
aware one in UTC at its instant on the host that writes. -/
structure AvroCodec (Datum : Type) where
  write : Zone → AvroType → Val → Option Datum
  read : AvroType → Datum → Val
  restores : ∀ z t v, t.admits v → ∃ d, write z t v = some d ∧ read t d = z.restore v

/-- What is written: `null`, a string, its elements, a number of microseconds. -/
inductive AvroDatum where
  | null
  | string (s : String)
  | strings (xs : List String)
  | long (n : ℤ)

namespace AvroDatum

def write (z : Zone) : AvroType → Val → Option AvroDatum
  | .string, .str s => some (.string s)
  | .strings, .list xs => (xs.mapM Val.asStr?).map .strings
  | .timestampMicros, .datetime t => some (.long (t.instant z))
  | .nullable _, .null => some .null
  | .nullable t, v => write z t v
  | _, _ => none

def read : AvroDatum → Val
  | .null => .null
  | .string s => .str s
  | .strings xs => .list (xs.map .str)
  | .long n => .datetime (.ofInstant n)

/-- A list of strings, as their texts. -/
theorem mapM_asStr (xs : List Val) (h : xs.all fun x => x.asStr?.isSome) :
    ∃ ss, xs.mapM Val.asStr? = some ss ∧ ss.map Val.str = xs := by
  induction xs with
  | nil => exact ⟨[], rfl, rfl⟩
  | cons x xs ih =>
    rw [List.all_cons, Bool.and_eq_true] at h
    obtain ⟨ss, hss, hmap⟩ := ih h.2
    cases x with
    | str s => exact ⟨s :: ss, by simp [List.mapM_cons, Val.asStr?, hss], by simp [hmap]⟩
    | _ => cases h.1

theorem restores (z : Zone) (t : AvroType) (v : Val) (h : t.admits v) :
    ∃ d, write z t v = some d ∧ read d = z.restore v := by
  induction t with
  | string =>
    cases v with
    | str s => exact ⟨.string s, rfl, rfl⟩
    | _ => cases h
  | strings =>
    cases v with
    | list xs =>
      obtain ⟨ss, hss, hmap⟩ := mapM_asStr xs h
      refine ⟨.strings ss, ?_, ?_⟩
      · rw [write, hss]
        rfl
      · rw [read, hmap]
        rfl
    | _ => cases h
  | timestampMicros =>
    cases v with
    | datetime t => exact ⟨.long (t.instant z), rfl, rfl⟩
    | _ => cases h
  | nullable t ih =>
    cases v with
    | null => exact ⟨.null, rfl, rfl⟩
    | bool b => exact ih h
    | int n => exact ih h
    | float r => exact ih h
    | str s => exact ih h
    | list xs => exact ih h
    | dict items => exact ih h
    | datetime t => exact ih h

/-- The codec that keeps the values and the microseconds. -/
def codec : AvroCodec AvroDatum where
  write := write
  read _ := read
  restores := restores

end AvroDatum

/-- Fields by name and type, in order. -/
abbrev Avsc := List (String × AvroType)

/-- `bsky.posts.v1.avsc`. -/
def postsAvsc : Avsc :=
  [("did", .string), ("rkey", .string), ("cid", .string), ("created_at", .timestampMicros), ("text", .string),
    ("langs", .nullable .strings), ("reply_parent", .nullable .string), ("reply_root", .nullable .string)]

/-- `bsky.likes.v1.avsc`. -/
def likesAvsc : Avsc :=
  [("did", .string), ("rkey", .string), ("cid", .string), ("created_at", .timestampMicros),
    ("subject_uri", .string), ("subject_cid", .string)]

/-- `bsky.follows.v1.avsc`. -/
def followsAvsc : Avsc :=
  [("did", .string), ("rkey", .string), ("cid", .string), ("created_at", .timestampMicros),
    ("subject_did", .string)]

def Kind.avsc : Kind → Avsc
  | .post => postsAvsc
  | .like => likesAvsc
  | .follow => followsAvsc

/-! ## Writing a model -/

/-- `str | None`, dumped. -/
def dumpOptStr (s : Option String) : Val := s.elim .null .str

/-- `list[str] | None`, dumped. -/
def dumpOptStrs (xs : Option (List String)) : Val := xs.elim .null fun xs => .list (xs.map .str)

def EventBase.modelDump (m : EventBase) : List (String × Val) :=
  [("did", .str m.did), ("rkey", .str m.rkey), ("cid", .str m.cid), ("created_at", .datetime m.createdAt)]

def Event.createdAt : Event → DateTime
  | .post m => m.createdAt
  | .like m => m.createdAt
  | .follow m => m.createdAt

/-- `_to_avro_dict`: the model's dump. A datetime stays one, aware or naive. -/
def Event.toAvroDict : Event → List (String × Val)
  | .post m => m.modelDump ++ [("text", .str m.text), ("langs", dumpOptStrs m.langs),
      ("reply_parent", dumpOptStr m.replyParent), ("reply_root", dumpOptStr m.replyRoot)]
  | .like m => m.modelDump ++ [("subject_uri", .str m.subjectUri), ("subject_cid", .str m.subjectCid)]
  | .follow m => m.modelDump ++ [("subject_did", .str m.subjectDid)]

/-- The value of a field, `null` where the dict has none. -/
def fieldValue (dict : List (String × Val)) (name : String) : Val := (dict.lookup name).getD .null

section Codec

variable {Datum : Type} (C : AvroCodec Datum) (z : Zone)

/-- A dict written with a schema, field by field. -/
def AvroCodec.writeRecord (schema : Avsc) (dict : List (String × Val)) : Option (List Datum) :=
  schema.mapM fun f => C.write z f.2 (fieldValue dict f.1)

/-- A record read with its schema. -/
def AvroCodec.readRecord (schema : Avsc) (data : List Datum) : Val :=
  .dict (List.zipWith (fun f d => (f.1, C.read f.2 d)) schema data)

/-- **A record comes back field by field.** -/
theorem readRecord_writeRecord {schema : Avsc} {dict : List (String × Val)}
    (h : ∀ f ∈ schema, f.2.admits (fieldValue dict f.1)) :
    ∃ data, C.writeRecord z schema dict = some data ∧
      C.readRecord schema data = .dict (schema.map fun f => (f.1, z.restore (fieldValue dict f.1))) := by
  unfold AvroCodec.writeRecord AvroCodec.readRecord
  induction schema with
  | nil => exact ⟨[], rfl, rfl⟩
  | cons f schema ih =>
    obtain ⟨d, hwrite, hread⟩ := C.restores z f.2 (fieldValue dict f.1) (h f List.mem_cons_self)
    obtain ⟨data, hdata, hrest⟩ := ih fun g hg => h g (List.mem_cons_of_mem _ hg)
    refine ⟨d :: data, ?_, ?_⟩
    · simp [List.mapM_cons, hwrite, hdata]
    · have hfields := Val.dict.inj hrest
      rw [List.zipWith_cons_cons, hread, hfields, List.map_cons]

/-! ## Reading a row -/

/-- A row of one of the bronze tables. -/
inductive Archived where
  | post (row : BronzeRow)
  | like (row : LikeRow)
  | follow (row : FollowRow)

def Archived.createdAt : Archived → DateTime
  | .post row => row.createdAt
  | .like row => row.createdAt
  | .follow row => row.createdAt

/-- The decoder of a topic. -/
def decodeAs (H : Host) : Kind → Val → RowBase → Except DlqRow Archived
  | .post, obj, base => Archived.post <$> decodePost H obj base
  | .like, obj, base => Archived.like <$> decodeLike H obj base
  | .follow, obj, base => Archived.follow <$> decodeFollow H obj base

/-- What becomes of a model written on a host in zone `z` and decoded by the archiver, `none` where it cannot be
written. -/
def archive (H : Host) (m : Event) (base : RowBase) : Option (Except DlqRow Archived) :=
  (C.writeRecord z m.kind.avsc m.toAvroDict).map fun data =>
    decodeAs H m.kind (C.readRecord m.kind.avsc data) base

/-- The row of a model written on a host in zone `z`. -/
def Event.row (m : Event) (base : RowBase) : Archived :=
  match m with
  | .post m => .post { base with
      did := m.did
      rkey := m.rkey
      cid := m.cid
      createdAt := .ofInstant (m.createdAt.instant z)
      text := m.text
      langs := m.langs.getD []
      replyParent := m.replyParent
      replyRoot := m.replyRoot }
  | .like m => .like { base with
      did := m.did
      rkey := m.rkey
      cid := m.cid
      createdAt := .ofInstant (m.createdAt.instant z)
      subjectUri := m.subjectUri
      subjectCid := m.subjectCid }
  | .follow m => .follow { base with
      did := m.did
      rkey := m.rkey
      cid := m.cid
      createdAt := .ofInstant (m.createdAt.instant z)
      subjectDid := m.subjectDid }

theorem admits_optStr (s : Option String) : (AvroType.nullable .string).admits (dumpOptStr s) := by
  cases s <;> rfl

theorem admits_optStrs (xs : Option (List String)) : (AvroType.nullable .strings).admits (dumpOptStrs xs) := by
  cases xs with
  | none => rfl
  | some xs =>
    have hall : (xs.map Val.str).all fun x => x.asStr?.isSome := by
      simp [Val.asStr?]
    exact hall

/-- Every field of a dump has the type of its schema. -/
theorem admits_dump (m : Event) : ∀ f ∈ m.kind.avsc, f.2.admits (fieldValue m.toAvroDict f.1) := by
  cases m with
  | post m =>
    simp only [Event.kind, Kind.avsc, postsAvsc, List.forall_mem_cons]
    exact ⟨rfl, rfl, rfl, rfl, rfl, admits_optStrs m.langs, admits_optStr m.replyParent,
      admits_optStr m.replyRoot, by simp⟩
  | like m =>
    simp only [Event.kind, Kind.avsc, likesAvsc, List.forall_mem_cons]
    exact ⟨rfl, rfl, rfl, rfl, rfl, rfl, by simp⟩
  | follow m =>
    simp only [Event.kind, Kind.avsc, followsAvsc, List.forall_mem_cons]
    exact ⟨rfl, rfl, rfl, rfl, rfl, by simp⟩

theorem asOptStr_dump (s : Option String) : (z.restore (dumpOptStr s)).asOptStr? = some s := by
  cases s <;> rfl

theorem asOptStrs_dump (xs : Option (List String)) : (z.restore (dumpOptStrs xs)).asOptStrs? = some xs := by
  cases xs with
  | none => rfl
  | some xs =>
    have hstrs : (xs.map Val.str).mapM Val.asStr? = some xs := by
      induction xs with
      | nil => rfl
      | cons x xs ih => simp [List.mapM_cons, Val.asStr?, ih]
    simp [dumpOptStrs, Zone.restore, Val.asOptStrs?, hstrs]

/-- Decoding what was restored of a dump gives the row. -/
theorem decodeAs_dump (H : Host) (m : Event) (base : RowBase) :
    decodeAs H m.kind (.dict (m.kind.avsc.map fun f => (f.1, z.restore (fieldValue m.toAvroDict f.1)))) base =
      .ok (m.row z base) := by
  cases m with
  | post m =>
    have hmodel : H.bskyPost (postsAvsc.map fun f => (f.1, z.restore (fieldValue (Event.post m).toAvroDict f.1))) =
        .ok { m with createdAt := .ofInstant (m.createdAt.instant z) } := by
      simp [Host.bskyPost, Host.eventBase?, orReject, required, optional, noExtra, postsAvsc, fieldValue,
        Event.toAvroDict, EventBase.modelDump, List.lookup_cons, Val.asStr?, Host.asDatetime?, asOptStrs_dump,
        asOptStr_dump]
    simp only [decodeAs, Event.kind, Kind.avsc, decodePost, decodeRow, Val.isNone, modelValidate, hmodel]
    rfl
  | like m =>
    have hmodel : H.bskyLike (likesAvsc.map fun f => (f.1, z.restore (fieldValue (Event.like m).toAvroDict f.1))) =
        .ok { m with createdAt := .ofInstant (m.createdAt.instant z) } := by
      simp [Host.bskyLike, Host.eventBase?, orReject, required, noExtra, likesAvsc, fieldValue,
        Event.toAvroDict, EventBase.modelDump, List.lookup_cons, Val.asStr?, Host.asDatetime?]
    simp only [decodeAs, Event.kind, Kind.avsc, decodeLike, decodeRow, Val.isNone, modelValidate, hmodel]
    rfl
  | follow m =>
    have hmodel : H.bskyFollow
        (followsAvsc.map fun f => (f.1, z.restore (fieldValue (Event.follow m).toAvroDict f.1))) =
        .ok { m with createdAt := .ofInstant (m.createdAt.instant z) } := by
      simp [Host.bskyFollow, Host.eventBase?, orReject, required, noExtra, followsAvsc, fieldValue,
        Event.toAvroDict, EventBase.modelDump, List.lookup_cons, Val.asStr?, Host.asDatetime?]
    simp only [decodeAs, Event.kind, Kind.avsc, decodeFollow, decodeRow, Val.isNone, modelValidate, hmodel]
    rfl

/-- **The row of a model**, for every codec and every zone. -/
theorem archive_eq (H : Host) (m : Event) (base : RowBase) :
    archive C z H m base = some (.ok (m.row z base)) := by
  obtain ⟨data, hwrite, hread⟩ := readRecord_writeRecord C z (admits_dump m)
  unfold archive
  rw [hwrite, Option.map_some, hread, decodeAs_dump]

end Codec

end BlueskyTrends
