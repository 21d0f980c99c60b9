import Mathlib
import Samkhya.Core.PuffinRoundTrip
import Samkhya.Foundations.Json

/-!
# The footer as JSON

What `serde` derives for the footer and its entries: members under their
renamed keys, empty maps and missing options left out when writing, and found
by name when reading, in any order and among members that are not known.
-/

namespace Samkhya

open FieldCodec

namespace FooterText

open Json

section Reading

/-- The members or elements that a derived visitor finds, by field name. -/
abbrev Slots := List Char → Option Value

/-- A known name that comes more than once. -/
def Repeats
    (names : List (List Char))
    (members : List (List Char × Value)) : Bool :=
  names.any fun name =>
    1 < (members.filter fun member => member.1 == name).length

/-- The fields of a struct, written as an object or as an array. -/
def slots (names : List (List Char)) : Value → Except String Slots
  | .obj members =>
      if Repeats names members then
        .error "duplicate field"
      else
        .ok fun name =>
          (members.find? fun member => member.1 == name).map Prod.snd
  | .arr items =>
      if names.length < items.length then
        .error "trailing characters"
      else
        .ok fun name => items[names.idxOf name]?
  | _ => .error "invalid type"

def required
    {α : Type}
    (read : Value → Except String α)
    (found : Slots)
    (name : List Char) : Except String α :=
  match found name with
  | none => .error "missing field"
  | some value => read value

def defaulting
    {α : Type}
    (default : α)
    (read : Value → Except String α)
    (found : Slots)
    (name : List Char) : Except String α :=
  match found name with
  | none => .ok default
  | some value => read value

/-- `null`, or a value. -/
def readOption
    {α : Type}
    (read : Value → Except String α) : Value → Except String (Option α)
  | .null => .ok none
  | value => (read value).map some

/-- An integer of a type with these bounds; `-0` is a float to the reader. -/
def readInt (low high : Int) : Value → Except String Int
  | .num text =>
      if text = ['-', '0'] then
        .error "invalid type: floating point"
      else
        match asInt text with
        | none => .error "invalid type: floating point"
        | some i =>
            if low ≤ i ∧ i ≤ high then
              .ok i
            else
              .error "invalid value: integer"
  | _ => .error "invalid type"

def readI32 (value : Value) : Except String Int32 :=
  (readInt (-2 ^ 31) (2 ^ 31 - 1) value).map Int32.ofInt

def readI64 (value : Value) : Except String Int64 :=
  (readInt (-2 ^ 63) (2 ^ 63 - 1) value).map Int64.ofInt

def readU64 (value : Value) : Except String UInt64 :=
  (readInt 0 (2 ^ 64 - 1) value).map fun i => UInt64.ofNat i.toNat

def readString : Value → Except String String
  | .str text => .ok (String.ofList text)
  | _ => .error "invalid type"

/-- `Vec<T>`. -/
def readList
    {α : Type}
    (read : Value → Except String α) : Value → Except String (List α)
  | .arr items => items.mapM read
  | _ => .error "invalid type"

/-- `BTreeMap<String, String>`: the last of two equal keys stays. -/
def readProperties : Value → Except String Properties
  | .obj members =>
      members.foldlM
        (fun (table : Properties) member =>
          (readString member.2).map fun value =>
            table.insert (String.ofList member.1) value)
        ∅
  | _ => .error "invalid type"

/-- The keys of a blob's entry, in the order of the fields. -/
def blobKeys : List (List Char) :=
  ["type", "fields", "snapshot-id", "sequence-number", "offset", "length",
    "compression-codec", "properties"].map String.toList

def readBlobMetadata (value : Value) : Except String BlobMetadata := do
  let found ← slots blobKeys value
  let kind ← required readString found "type".toList
  let fields ← required (readList readI32) found "fields".toList
  let snapshotId ←
    defaulting none (readOption readI64) found "snapshot-id".toList
  let sequenceNumber ←
    defaulting none (readOption readI64) found "sequence-number".toList
  let offset ← required readU64 found "offset".toList
  let length ← required readU64 found "length".toList
  let compressionCodec ←
    defaulting none (readOption readString) found "compression-codec".toList
  let properties ←
    defaulting ∅ readProperties found "properties".toList
  pure
    { kind, fields, snapshotId, sequenceNumber, offset, length,
      compressionCodec, properties }

def footerKeys : List (List Char) :=
  ["blobs", "properties"].map String.toList

def readFooter (value : Value) : Except String FooterPayload := do
  let found ← slots footerKeys value
  let blobs ←
    required (readList readBlobMetadata) found "blobs".toList
  let properties ←
    defaulting ∅ readProperties found "properties".toList
  pure { blobs, properties }

end Reading

section Writing

def intValue (i : Int) : Value :=
  .num (intText i)

def stringValue (s : String) : Value :=
  .str s.toList

/-- A struct's fields; those without a value are left out. -/
def members
    (entries : List (List Char × Option Value)) :
    List (List Char × Value) :=
  entries.filterMap fun entry =>
    entry.2.map fun value => (entry.1, value)

/-- An empty map is not written. -/
def propertiesValue (properties : Properties) : Option Value :=
  if properties.isEmpty then
    none
  else
    some
      (.obj
        (properties.toList.map fun p => (p.1.toList, stringValue p.2)))

def blobEntries
    (blob : BlobMetadata) : List (List Char × Option Value) :=
  [("type".toList, some (stringValue blob.kind)),
    ("fields".toList,
      some (.arr (blob.fields.map fun field => intValue field.toInt))),
    ("snapshot-id".toList,
      blob.snapshotId.map fun id => intValue id.toInt),
    ("sequence-number".toList,
      blob.sequenceNumber.map fun number => intValue number.toInt),
    ("offset".toList, some (intValue blob.offset.toNat)),
    ("length".toList, some (intValue blob.length.toNat)),
    ("compression-codec".toList, blob.compressionCodec.map stringValue),
    ("properties".toList, propertiesValue blob.properties)]

def blobValue (blob : BlobMetadata) : Value :=
  .obj (members (blobEntries blob))

def footerEntries
    (footer : FooterPayload) : List (List Char × Option Value) :=
  [("blobs".toList, some (.arr (footer.blobs.map blobValue))),
    ("properties".toList, propertiesValue footer.properties)]

def footerValue (footer : FooterPayload) : Value :=
  .obj (members (footerEntries footer))

end Writing

section RoundTrip

theorem mem_members
    {entries : List (List Char × Option Value)}
    {member : List Char × Value} :
    member ∈ members entries ↔ (member.1, some member.2) ∈ entries := by
  constructor
  · intro h
    obtain ⟨entry, hentry, hmember⟩ := List.mem_filterMap.mp h
    obtain ⟨value, hvalue, rfl⟩ := Option.map_eq_some_iff.mp hmember
    rw [← hvalue]
    exact hentry
  · intro h
    exact List.mem_filterMap.mpr ⟨_, h, rfl⟩

/-- Leaving fields out keeps their order. -/
theorem members_sublist
    (entries : List (List Char × Option Value)) :
    ((members entries).map Prod.fst).Sublist (entries.map Prod.fst) := by
  induction entries with
  | nil => exact List.Sublist.refl []
  | cons entry entries ih =>
      obtain ⟨name, value⟩ := entry
      cases value with
      | none => exact ih.cons name
      | some value => exact ih.cons_cons name

/--
An object that says what these fields say: the members with known names in any
order, and any members besides.
-/
def Says
    (entries : List (List Char × Option Value))
    (value : Value) : Prop :=
  ∃ found, value = .obj found ∧
    (found.filter fun member =>
        (entries.map Prod.fst).contains member.1).Perm
      (members entries)

theorem says_members
    (entries : List (List Char × Option Value)) :
    Says entries (.obj (members entries)) := by
  refine ⟨_, rfl, ?_⟩
  rw [List.filter_eq_self.mpr]
  intro member hmember
  rw [List.contains_iff_mem]
  exact List.mem_map.mpr ⟨_, mem_members.mp hmember, rfl⟩

/-- Each field is found once under its name, unless it was left out. -/
theorem Says.slots_eq
    {entries : List (List Char × Option Value)}
    {value : Value}
    (h : Says entries value)
    (hnodup : (entries.map Prod.fst).Nodup) :
    ∃ found, slots (entries.map Prod.fst) value = .ok found ∧
      ∀ entry ∈ entries, found entry.1 = entry.2 := by
  obtain ⟨found, rfl, hperm⟩ := h
  have hmem :
      ∀ member : List Char × Value, member.1 ∈ entries.map Prod.fst →
        (member ∈ found ↔ (member.1, some member.2) ∈ entries) := by
    intro member hname
    rw [← mem_members, ← hperm.mem_iff, List.mem_filter,
      List.contains_iff_mem]
    exact ⟨fun h => ⟨h, hname⟩, fun h => h.1⟩
  have hrepeats : Repeats (entries.map Prod.fst) found = false := by
    rw [Repeats, List.any_eq_false]
    intro name hname
    have hfilter :
        found.filter (fun member => member.1 == name) =
          (found.filter fun member =>
              (entries.map Prod.fst).contains member.1).filter
            fun member => member.1 == name := by
      rw [List.filter_filter]
      apply List.filter_congr
      intro member _
      by_cases heq : member.1 = name
      · have hcontains := List.contains_iff_mem.mpr hname
        rw [← heq] at hcontains
        rw [hcontains, Bool.and_true]
      · have hfalse : (member.1 == name) = false := by simp [heq]
        rw [hfalse, Bool.false_and]
    have hcount :=
      List.nodup_iff_count_le_one.mp
        (hnodup.sublist (members_sublist entries)) name
    rw [List.count, List.countP_map, List.countP_eq_length_filter]
      at hcount
    rw [hfilter, (hperm.filter _).length_eq]
    simpa [Function.comp_def] using hcount
  refine
    ⟨fun name =>
        (found.find? fun member => member.1 == name).map Prod.snd,
      by simp [slots, hrepeats], ?_⟩
  intro entry hentry
  have hname : entry.1 ∈ entries.map Prod.fst :=
    List.mem_map.mpr ⟨entry, hentry, rfl⟩
  change (found.find? fun member => member.1 == entry.1).map Prod.snd =
    entry.2
  cases hfind : found.find? fun member => member.1 == entry.1 with
  | none =>
      cases hvalue : entry.2 with
      | none => rfl
      | some value =>
          have hmember : (entry.1, value) ∈ found := by
            rw [hmem _ hname, ← hvalue]
            exact hentry
          have habsent := List.find?_eq_none.mp hfind _ hmember
          simp at habsent
  | some member =>
      have hfound := List.find?_some hfind
      have heq : member.1 = entry.1 := eq_of_beq hfound
      have hmember :=
        (hmem member (heq ▸ hname)).mp (List.mem_of_find?_eq_some hfind)
      have hsame := List.inj_on_of_nodup_map hnodup hmember hentry heq
      exact congrArg Prod.snd hsame

theorem readInt_intValue
    {low high i : Int}
    (hlow : low ≤ i)
    (hhigh : i ≤ high) :
    readInt low high (intValue i) = .ok i := by
  have hzero : intText i ≠ ['-', '0'] := by
    intro h
    have hread := asInt_intText i
    rw [h] at hread
    have hi : i = 0 := (Option.some.inj hread).symm
    rw [hi] at h
    exact absurd h (by decide)
  simp [readInt, intValue, hzero, asInt_intText, hlow, hhigh]

theorem readI32_intValue
    (i : Int32) :
    readI32 (intValue i.toInt) = .ok i := by
  rw [readI32, readInt_intValue i.le_toInt (by have := i.toInt_lt; omega)]
  simp [Except.map]

theorem readI64_intValue
    (i : Int64) :
    readI64 (intValue i.toInt) = .ok i := by
  rw [readI64, readInt_intValue i.le_toInt (by have := i.toInt_lt; omega)]
  simp [Except.map]

theorem readU64_intValue
    (n : UInt64) :
    readU64 (intValue n.toNat) = .ok n := by
  have hlt := n.toNat_lt
  rw [readU64, readInt_intValue (by omega) (by omega)]
  simp [Except.map]

theorem readString_stringValue
    (s : String) :
    readString (stringValue s) = .ok s := by
  simp [readString, stringValue]

theorem mapM_ok
    {α β : Type}
    {read : β → Except String α}
    {items : List α}
    {values : List β}
    (h : List.Forall₂ (fun a b => read b = .ok a) items values) :
    values.mapM read = .ok items := by
  induction h with
  | nil => rfl
  | cons hread _ ih =>
      rw [List.mapM_cons, hread, ih]
      rfl

theorem forall₂_map_right
    {α β : Type}
    {relation : α → β → Prop}
    {write : α → β}
    (h : ∀ a, relation a (write a))
    (items : List α) :
    List.Forall₂ relation items (items.map write) :=
  List.forall₂_map_right_iff.mpr
    (List.forall₂_same.mpr fun a _ => h a)

/-- A map is rebuilt from its entries. -/
theorem readProperties_obj
    (properties : Properties) :
    readProperties
        (.obj
          (properties.toList.map
            fun p => (p.1.toList, stringValue p.2))) =
      .ok properties := by
  have hfold :
      ∀ (entries : List (String × String)) (table : Properties),
        (entries.map fun p => (p.1.toList, stringValue p.2)).foldlM
            (fun (table : Properties) member =>
              (readString member.2).map fun value =>
                table.insert (String.ofList member.1) value)
            table =
          .ok (entries.foldl (fun table p => table.insert p.1 p.2) table) := by
    intro entries
    induction entries with
    | nil =>
        intro table
        rfl
    | cons p entries ih =>
        intro table
        rw [List.map_cons, List.foldlM_cons, readString_stringValue,
          List.foldl_cons, ← ih, String.ofList_toList]
        rfl
  rw [readProperties, hfold, ← Std.ExtTreeMap.ofList_eq_foldl]
  congr 1
  apply Std.ExtTreeMap.ext_getElem?
  intro key
  cases hvalue : properties[key]? with
  | some value =>
      exact
        Std.ExtTreeMap.getElem?_ofList_of_mem
          (Std.ReflCmp.compare_self (a := key))
          Std.ExtTreeMap.distinct_keys_toList
          (Std.ExtTreeMap.mem_toList_iff_getElem?_eq_some.mpr hvalue)
  | none =>
      apply Std.ExtTreeMap.getElem?_ofList_of_contains_eq_false
      rw [Std.ExtTreeMap.map_fst_toList_eq_keys]
      simpa using hvalue

section Fields

variable {α : Type} {found : Slots} {name : List Char}

theorem required_some
    {read : Value → Except String α}
    {value : Value}
    {a : α}
    (hread : read value = .ok a)
    (hfound : found name = some value) :
    required read found name = .ok a := by
  rw [required, hfound]
  exact hread

/-- An option is read back, whether it was written or left out. -/
theorem defaulting_option
    {write : α → Value}
    {read : Value → Except String α}
    (hread : ∀ a, read (write a) = .ok a)
    (hnull : ∀ a, write a ≠ .null)
    {o : Option α}
    (hfound : found name = o.map write) :
    defaulting none (readOption read) found name = .ok o := by
  rw [defaulting, hfound]
  cases o with
  | none => rfl
  | some a =>
      have hvalue : readOption read (write a) = (read (write a)).map some := by
        unfold readOption
        split
        · exact absurd ‹_› (hnull a)
        · rfl
      rw [Option.map_some]
      simp only [hvalue, hread]
      rfl

theorem defaulting_properties
    {properties : Properties}
    (hfound : found name = propertiesValue properties) :
    defaulting ∅ readProperties found name = .ok properties := by
  rw [defaulting, hfound, propertiesValue]
  split_ifs with hempty
  · rw [Std.ExtTreeMap.isEmpty_iff.mp hempty]
  · exact readProperties_obj properties

theorem required_list
    {read : Value → Except String α}
    {items : List α}
    {values : List Value}
    (hread :
      List.Forall₂ (fun a value => read value = .ok a) items values)
    (hfound : found name = some (.arr values)) :
    required (readList read) found name = .ok items := by
  rw [required, hfound]
  exact mapM_ok hread

end Fields

/-- An entry that says what a blob's metadata says is read as it. -/
theorem readBlobMetadata_of_says
    {blob : BlobMetadata}
    {value : Value}
    (h : Says (blobEntries blob) value) :
    readBlobMetadata value = .ok blob := by
  obtain ⟨found, hslots, hfound⟩ := h.slots_eq (by simp [blobEntries])
  have hnames : (blobEntries blob).map Prod.fst = blobKeys := rfl
  rw [hnames] at hslots
  simp only [blobEntries, List.forall_mem_cons] at hfound
  obtain ⟨hkind, hfields, hid, hnumber, hoffset, hlength, hcodec,
    hproperties, _⟩ := hfound
  have hfield :
      List.Forall₂ (fun field value => readI32 value = .ok field)
        blob.fields
        (blob.fields.map fun field => intValue field.toInt) := by
    apply forall₂_map_right
    exact readI32_intValue
  rw [readBlobMetadata, hslots]
  simp only [bind, Except.bind,
    required_some (readString_stringValue blob.kind) hkind,
    required_list hfield hfields,
    defaulting_option readI64_intValue (fun _ => Value.noConfusion) hid,
    defaulting_option readI64_intValue (fun _ => Value.noConfusion)
      hnumber,
    required_some (readU64_intValue blob.offset) hoffset,
    required_some (readU64_intValue blob.length) hlength,
    defaulting_option readString_stringValue
      (fun _ => Value.noConfusion) hcodec,
    defaulting_properties hproperties]
  rfl

/-- The fields of a footer whose entries are spelled so. -/
def footerEntriesWith
    (values : List Value)
    (properties : Properties) : List (List Char × Option Value) :=
  [("blobs".toList, some (.arr values)),
    ("properties".toList, propertiesValue properties)]

/-- A document that says what a footer says, down to its entries. -/
def SaysFooter (footer : FooterPayload) (value : Value) : Prop :=
  ∃ values,
    List.Forall₂ (fun blob => Says (blobEntries blob)) footer.blobs
        values ∧
      Says (footerEntriesWith values footer.properties) value

theorem saysFooter_footerValue
    (footer : FooterPayload) :
    SaysFooter footer (footerValue footer) :=
  ⟨footer.blobs.map blobValue,
    forall₂_map_right (fun blob => says_members (blobEntries blob)) _,
    says_members _⟩

/-- A document that says what a footer says is read as it. -/
theorem readFooter_of_says
    {footer : FooterPayload}
    {value : Value}
    (h : SaysFooter footer value) :
    readFooter value = .ok footer := by
  obtain ⟨values, hvalues, hspells⟩ := h
  obtain ⟨found, hslots, hfound⟩ :=
    hspells.slots_eq (by simp [footerEntriesWith])
  have hnames :
      (footerEntriesWith values footer.properties).map Prod.fst =
        footerKeys := rfl
  rw [hnames] at hslots
  simp only [footerEntriesWith, List.forall_mem_cons] at hfound
  obtain ⟨hblobs, hproperties, _⟩ := hfound
  have hread := hvalues.imp fun _ _ => readBlobMetadata_of_says
  rw [readFooter, hslots]
  simp only [bind, Except.bind, required_list hread hblobs,
    defaulting_properties hproperties]
  rfl

end RoundTrip

section Depth

theorem fits_intValue
    (depth : Nat)
    (i : Int) :
    Fits depth (intValue i) := by
  cases depth <;> exact numberText_intText i

theorem fits_stringValue
    (depth : Nat)
    (s : String) :
    Fits depth (stringValue s) := by
  cases depth <;> trivial

theorem fits_propertiesValue
    (depth : Nat)
    {properties : Properties}
    {value : Value}
    (h : propertiesValue properties = some value) :
    Fits (depth + 1) value := by
  unfold propertiesValue at h
  split_ifs at h
  obtain rfl := Option.some.inj h
  intro member hmember
  obtain ⟨p, _, rfl⟩ := List.mem_map.mp hmember
  exact fits_stringValue depth p.2

/-- A struct nests one level deeper than its fields. -/
theorem fits_members
    {depth : Nat}
    {entries : List (List Char × Option Value)}
    (h :
      ∀ entry ∈ entries, ∀ value,
        entry.2 = some value → Fits depth value) :
    Fits (depth + 1) (.obj (members entries)) :=
  fun _ hmember => h _ (mem_members.mp hmember) _ rfl

theorem fits_map
    {α : Type}
    {depth : Nat}
    {write : α → Value}
    {o : Option α}
    (h : ∀ a, Fits depth (write a)) :
    ∀ value, o.map write = some value → Fits depth value := by
  intro value hvalue
  obtain ⟨a, _, rfl⟩ := Option.map_eq_some_iff.mp hvalue
  exact h a

theorem fits_blobValue
    (blob : BlobMetadata) :
    Fits 2 (blobValue blob) := by
  apply fits_members
  simp only [blobEntries, List.forall_mem_cons]
  refine ⟨?_, ?_, fits_map fun _ => fits_intValue 1 _,
    fits_map fun _ => fits_intValue 1 _, ?_, ?_,
    fits_map fun _ => fits_stringValue 1 _,
    fun _ => fits_propertiesValue 0, by simp⟩
  · rintro _ ⟨⟩
    exact fits_stringValue 1 _
  · rintro _ ⟨⟩
    intro value hvalue
    obtain ⟨field, _, rfl⟩ := List.mem_map.mp hvalue
    exact fits_intValue 0 _
  · rintro _ ⟨⟩
    exact fits_intValue 1 _
  · rintro _ ⟨⟩
    exact fits_intValue 1 _

theorem fits_footerValue
    (footer : FooterPayload) :
    Fits 4 (footerValue footer) := by
  apply fits_members
  simp only [footerEntries, List.forall_mem_cons]
  refine ⟨?_, fun _ => fits_propertiesValue 2, by simp⟩
  rintro _ ⟨⟩
  intro value hvalue
  obtain ⟨blob, _, rfl⟩ := List.mem_map.mp hvalue
  exact fits_blobValue blob

end Depth

end FooterText

/--
`serde_json` at the footer.  What it skips it only scans; no recursion limit
binds these types.
-/
def serdeJson : FooterJson where
  serialize footer := .ok (Json.encode (FooterText.footerValue footer))
  deserialize bytes :=
    match Json.decode bytes.length bytes with
    | none => .error "expected value"
    | some value => FooterText.readFooter value

/-- A text that spells what a footer says. -/
def Spells (bytes : Bytes) (footer : FooterPayload) : Prop :=
  ∃ value, Json.decode bytes.length bytes = some value ∧
    FooterText.SaysFooter footer value

theorem Spells.deserialize
    {bytes : Bytes}
    {footer : FooterPayload}
    (h : Spells bytes footer) :
    serdeJson.deserialize bytes = .ok footer := by
  obtain ⟨value, hdecode, hsays⟩ := h
  simp only [serdeJson, hdecode]
  exact FooterText.readFooter_of_says hsays

/-- The text that is written is one of them. -/
theorem spells_footerValue
    (footer : FooterPayload) :
    Spells (Json.encode (FooterText.footerValue footer)) footer :=
  ⟨_, Json.decode_encode_length (FooterText.fits_footerValue footer),
    FooterText.saysFooter_footerValue footer⟩

theorem serdeJson_roundTrips :
    serdeJson.RoundTrips := by
  intro footer bytes hserialize
  obtain rfl := Except.ok.inj hserialize
  exact (spells_footerValue footer).deserialize

section Files

open ByteDevice PuffinWriter PuffinReader

variable
  {properties : List (String × String)}
  {calls : List WriterCall}

/-- Payloads under any text that is read as their footer are read back. -/
theorem open_of_deserialize
    {json : FooterJson}
    {text : Bytes}
    (hcount : calls.length ≤ maxBlobCount)
    (hsmall :
      ∀ call ∈ calls, call.blob.payload.length ≤ maxBlobLen)
    (hdecoded :
      json.deserialize text = .ok (fileFooter properties calls))
    (hlength : text.length ≤ maxFooterLen)
    (position : Nat) :
    ∃ r t,
      PuffinReader.open json
          ⟨withFooter (magic ++ payloads calls) text, position, []⟩ =
        .ok r t ∧
      Faithful properties calls
        (withFooter (magic ++ payloads calls) text) r := by
  have htotal : (payloads calls).length ≤ maxBlobCount * maxBlobLen :=
    (length_payloads_le hsmall).trans (Nat.mul_le_mul_right _ hcount)
  have hroom : maxBlobCount * maxBlobLen + 4 ≤ capacity := by
    decide
  have hfront :
      (magic ++ payloads calls).length = 4 + (payloads calls).length :=
    List.length_append
  have haccepts :
      Accepts json
        (withFooter (magic ++ payloads calls) text)
        ⟨fileFooter properties calls, 4 + (payloads calls).length⟩ := by
    rw [← hfront]
    apply accepts_withFooter
    · rw [length_withFooter]
      omega
    · exact hlength
    · exact slice_eq (a := []) rfl rfl rfl
    · exact hdecoded
    · rw [fileFooter, length_layOut]
      exact hcount
  obtain ⟨t, hopen⟩ := haccepts.run position
  exact ⟨_, t, hopen, faithful_withFooter (by omega) hsmall⟩

/-- The writer's own file, with the footer as `serde_json` spells it. -/
theorem exists_written
    (hcount : calls.length ≤ maxBlobCount)
    (hsmall :
      ∀ call ∈ calls, call.blob.payload.length ≤ maxBlobLen)
    (hlength :
      (Json.encode
          (FooterText.footerValue (fileFooter properties calls))).length ≤
        maxFooterLen) :
    ∃ steps sink,
      writeFile serdeJson Sink.fresh properties calls =
          (steps, .ok sink) ∧
      sink.written =
        withFooter (magic ++ payloads calls)
          (Json.encode
            (FooterText.footerValue (fileFooter properties calls))) := by
  have htotal : (payloads calls).length ≤ maxBlobCount * maxBlobLen :=
    (length_payloads_le hsmall).trans (Nat.mul_le_mul_right _ hcount)
  have hroom :
      maxBlobCount * maxBlobLen + maxFooterLen + 20 ≤ capacity := by
    decide
  have hfront :
      (magic ++ payloads calls).length = 4 + (payloads calls).length :=
    List.length_append
  obtain ⟨steps, w, sink, t, hrun, _, hfinish, hwritten⟩ :=
    @exists_run_of_room serdeJson properties calls _ rfl
      (hlength.trans (by decide)) (by rw [length_withFooter]; omega)
  refine ⟨steps, sink, ?_, hwritten⟩
  unfold writeFile
  simp only [hrun, hfinish]

/-- Its footer with other white space and escapes, and with a note to skip. -/
def spelledFooterBytes : Bytes :=
  asciiBytes
      ("\x7b \"note\": [1e999, \x7b\"\\udc00\":\"\\ud800\"\x7d, \"") ++
    [255] ++
    asciiBytes
      ("\"],\n\"properties\" :\x7b\"created-by\": " ++
        "\"samkhya-core version 1.2.3\"," ++
        "\"samkhya.schema-version\":\"\\u0031\"\x7d, " ++
        "\"bl\\u006fbs\":[\x7b\"fields\":[ 0 ]," ++
        "\"type\":\"samkhya.test-v1\",\"snapshot-id\":-1," ++
        "\"sequence-number\":-1,\"offset\":4,\"length\":4\x7d," ++
        "\x7b\"fields\":[0],\"type\":\"samkhya\\u002Etest-v1\"," ++
        "\"snapshot-id\":7,\"sequence-number\":9," ++
        "\"offset\":8,\"length\":0\x7d]\x7d")
where
  asciiBytes (s : String) : Bytes :=
    s.toList.map fun c => UInt8.ofNat c.toNat

def spelledEntry
    (id number : Int)
    (offset length : Nat) : List (List Char × Json.Value) :=
  [("fields".toList, .arr [FooterText.intValue 0]),
    ("type".toList, .str "samkhya.test-v1".toList),
    ("snapshot-id".toList, FooterText.intValue id),
    ("sequence-number".toList, FooterText.intValue number),
    ("offset".toList, FooterText.intValue offset),
    ("length".toList, FooterText.intValue length)]

def spelledProperties : Json.Value :=
  .obj
    [("created-by".toList, .str "samkhya-core version 1.2.3".toList),
      ("samkhya.schema-version".toList, .str "1".toList)]

def spelledFooter : Json.Value :=
  .obj
    [("note".toList,
        .arr [.num "1e999".toList, .garbled, .garbled]),
      ("properties".toList, spelledProperties),
      ("blobs".toList,
        .arr
          [.obj (spelledEntry (-1) (-1) 4 4),
            .obj (spelledEntry 7 9 8 0)])]

/-- An entry with its first two members the other way round. -/
theorem says_spelledEntry
    {id number : Int}
    {offset length : Nat}
    {entries : List (List Char × Option Json.Value)}
    (hnames :
      (spelledEntry id number offset length).all fun member =>
        (entries.map Prod.fst).contains member.1)
    (hmembers :
      Json.sameMembers
          (match spelledEntry id number offset length with
          | a :: b :: rest => b :: a :: rest
          | other => other)
          (FooterText.members entries) =
        true) :
    FooterText.Says entries (.obj (spelledEntry id number offset length)) := by
  refine ⟨_, rfl, ?_⟩
  rw [List.filter_eq_self.mpr (List.all_eq_true.mp hnames),
    ← Json.eq_of_sameMembers _ _ hmembers]
  exact List.Perm.swap _ _ _

theorem spells_spelledFooterBytes :
    Spells spelledFooterBytes (fileFooter [] smallCalls) := by
  have hdecode :
      (Json.decode spelledFooterBytes.length spelledFooterBytes).any
          (Json.same spelledFooter) =
        true := by
    decide +kernel
  obtain ⟨value, hvalue, hsame⟩ := (Option.any_eq_true _ _).mp hdecode
  obtain rfl := Json.eq_of_same _ _ hsame
  have hproperties :
      FooterText.propertiesValue (fileFooter [] smallCalls).properties =
        some spelledProperties := by
    have hany :
        (FooterText.propertiesValue
            (fileFooter [] smallCalls).properties).any
          (Json.same spelledProperties) =
        true := by
      decide +kernel
    obtain ⟨value, hvalue, hsame⟩ := (Option.any_eq_true _ _).mp hany
    rw [hvalue, Json.eq_of_same _ _ hsame]
  refine
    ⟨spelledFooter, hvalue,
      [.obj (spelledEntry (-1) (-1) 4 4), .obj (spelledEntry 7 9 8 0)],
      .cons ?_ (.cons ?_ .nil), ?_⟩
  · exact says_spelledEntry (by decide +kernel) (by decide +kernel)
  · exact says_spelledEntry (by decide +kernel) (by decide +kernel)
  · refine ⟨_, rfl, ?_⟩
    simp only [FooterText.footerEntriesWith, hproperties]
    exact List.Perm.swap _ _ _

end Files

end Samkhya
