import Egregore.LogRecords
import Egregore.RedactionMarkersSpec

/-!
# Identities of log records

The identities of `log_graph.rs` tell the signatures of a scan and their hours apart, where the
hash tells the texts apart that are hashed for them. A template may contain the mark that ends a
part; what follows it does not.
-/

namespace Egregore.LogGraph

open Base Redaction

/-! ## Hashed texts -/

section Parts

/-- The mark that ends a part. -/
def partMark : Char := '\x00'

/-- The text that is hashed of the parts of an identity. -/
def identityChars (parts : List String) : List Char :=
  parts.flatMap fun part => part.toList ++ [partMark]

theorem identityBytes_eq (parts : List String) :
    identityBytes parts = asBytes (String.ofList (identityChars parts)) := by
  induction parts with
  | nil => rfl
  | cons part parts ih =>
      have mark : asBytes (String.ofList [partMark]) = [0] := by decide
      have text : String.ofList (identityChars (part :: parts)) =
          part ++ String.ofList [partMark] ++ String.ofList (identityChars parts) := by
        rw [identityChars, List.flatMap_cons, String.ofList_append, String.ofList_append,
          String.ofList_toList]
        rfl
      rw [text, asBytes_append, asBytes_append, mark, ← ih]
      rfl

theorem identityBytes_eq_iff {parts other : List String} :
    identityBytes parts = identityBytes other ↔ identityChars parts = identityChars other := by
  rw [identityBytes_eq, identityBytes_eq]
  refine ⟨fun same => ?_, fun same => by rw [same]⟩
  simpa using congrArg String.toList (asBytes_injective same)

/-- The last part without the mark is told from what comes before it. -/
theorem split_at_mark {front front' back back' : List Char} (plain : partMark ∉ back)
    (plain' : partMark ∉ back') (same : front ++ partMark :: back = front' ++ partMark :: back') :
    front = front' ∧ back = back' := by
  have split := congrArg (rsplitOnce partMark) same
  rw [rsplitOnce_append plain, rsplitOnce_append plain'] at split
  exact Prod.mk.inj (Option.some.inj split)

end Parts

/-! ## Hashes -/

section Hashes

variable {blake3 : Bytes → Vector UInt8 32}

theorem toHex_injective {hash other : Vector UInt8 32} (same : toHex hash = toHex other) :
    hash = other := by
  have digits {byte other : UInt8}
      (same : [(byte.toNat / 16).digitChar, (byte.toNat % 16).digitChar] =
        [(other.toNat / 16).digitChar, (other.toNat % 16).digitChar]) : byte = other := by
    have below {digit digit' : Nat} (small : digit < 16) (small' : digit' < 16)
        (same : digit.digitChar = digit'.digitChar) : digit = digit' := by
      have all : ∀ digit digit' : Fin 16, Nat.digitChar digit = Nat.digitChar digit' →
          digit = digit' := by decide
      exact congrArg Fin.val (all ⟨digit, small⟩ ⟨digit', small'⟩ same)
    have size := byte.toNat_lt
    have size' := other.toNat_lt
    obtain ⟨high, low⟩ := List.cons.inj same
    have high := below (by omega) (by omega) high
    have low := below (by omega) (by omega) (List.cons.inj low).1
    apply UInt8.toNat_inj.mp
    omega
  have bytes : hash.toList = other.toList := by
    have length : hash.toList.length = other.toList.length := by simp
    rw [toHex, toHex] at same
    generalize hash.toList = bytes at same length
    generalize other.toList = bytes' at same length
    induction bytes generalizing bytes' with
    | nil => exact (List.eq_nil_of_length_eq_zero length.symm).symm
    | cons byte bytes ih =>
        obtain ⟨byte', bytes', rfl⟩ := List.exists_cons_of_length_eq_add_one length.symm
        rw [List.flatMap_cons, List.flatMap_cons] at same
        obtain ⟨first, later⟩ := List.append_inj same rfl
        rw [digits first, ih bytes' later (Nat.succ.inj length)]
  exact Vector.toList_inj.mp bytes

theorem logStableId_eq_iff {parts other : List String} :
    logStableId blake3 parts = logStableId blake3 other ↔
      blake3 (identityBytes parts) = blake3 (identityBytes other) := by
  refine ⟨fun same => ?_, fun same => by rw [logStableId, logStableId, same]⟩
  have hex := congrArg String.toList same
  simp only [logStableId, String.toList_append, String.toList_ofList] at hex
  exact toHex_injective (List.append_cancel_left hex)

/-- Identities are all as long. -/
theorem length_logStableId (parts : List String) :
    (logStableId blake3 parts).toList.length = "log:v3:".toList.length + 64 := by
  simp only [logStableId, String.toList_append, String.toList_ofList, List.length_append,
    length_toHex]
  decide

end Hashes

/-! ## Signatures and hours -/

section Scan

variable {env : LogEnv} {site : ScanSite} {sourceId text : String}

/-- Where the hash tells texts apart, it does so for those of the identities. -/
def TellsApart (blake3 : Bytes → Vector UInt8 32) (identities : List (List String)) : Prop :=
  ∀ parts ∈ identities, ∀ other ∈ identities,
    blake3 (identityBytes parts) = blake3 (identityBytes other) →
      identityBytes parts = identityBytes other

/-- Identities that all hash differently are told apart. -/
theorem tellsApart_of_nodup {blake3 : Bytes → Vector UInt8 32} {identities : List (List String)}
    (distinct : (identities.map fun parts => blake3 (identityBytes parts)).Nodup) :
    TellsApart blake3 identities := by
  intro parts member other member' same
  have sameParts := List.inj_on_of_nodup_map distinct member member' same
  rw [sameParts]

variable (env site) in
/-- The identities of the signatures of a scan, of their hours and of their exemplars. -/
def scanIdentities (sourceId text : String) : List (List String) :=
  (signatureGroups (occurrencesOf env site text)).flatMap fun group =>
    let signatureId := signatureIdOf env site group.1
    signatureParts site group.1 ::
      ((hourlyBuckets group.2).keys.map (bucketParts site sourceId signatureId) ++
        (exemplars env group.2).map fun exemplar => eventParts site signatureId exemplar.1)

/-- What is hashed for a signature tells its key, where the severity has no mark. -/
theorem signatureParts_inj {key key' : String × String} (plain : partMark ∉ key.1.toList)
    (plain' : partMark ∉ key'.1.toList)
    (same : identityBytes (signatureParts site key) = identityBytes (signatureParts site key')) :
    key = key' := by
  rw [identityBytes_eq_iff] at same
  simp only [signatureParts, identityChars, List.flatMap_cons, List.flatMap_nil, List.append_nil,
    List.append_cancel_left_eq] at same
  rw [← List.append_assoc, ← List.append_assoc, List.append_cancel_right_eq, List.append_assoc,
    List.append_assoc] at same
  obtain ⟨templates, severities⟩ := split_at_mark plain plain' same
  exact Prod.ext (String.toList_inj.mp severities) (String.toList_inj.mp templates)

/-- What is hashed for an hour tells the hour and its signature. -/
theorem bucketParts_inj {signatureId signatureId' start start' : String}
    (length : signatureId.toList.length = signatureId'.toList.length)
    (same : identityBytes (bucketParts site sourceId signatureId start) =
      identityBytes (bucketParts site sourceId signatureId' start')) :
    signatureId = signatureId' ∧ start = start' := by
  rw [identityBytes_eq_iff] at same
  simp only [bucketParts, identityChars, List.flatMap_cons, List.flatMap_nil, List.append_nil,
    List.append_cancel_left_eq] at same
  obtain ⟨ids, starts⟩ := List.append_inj same (by simpa using length)
  rw [List.append_cancel_right_eq] at ids
  simp only [← List.append_assoc, List.append_cancel_right_eq] at starts
  exact ⟨String.toList_inj.mp ids, String.toList_inj.mp starts⟩

/-- What is hashed for an exemplar tells its signature. -/
theorem eventParts_inj {signatureId signatureId' : String} {exemplar exemplar' : String × String}
    (length : signatureId.toList.length = signatureId'.toList.length)
    (same : identityBytes (eventParts site signatureId exemplar) =
      identityBytes (eventParts site signatureId' exemplar')) : signatureId = signatureId' := by
  rw [identityBytes_eq_iff] at same
  simp only [eventParts, identityChars, List.flatMap_cons, List.flatMap_nil, List.append_nil,
    List.append_cancel_left_eq] at same
  obtain ⟨ids, -⟩ := List.append_inj same (by simpa using length)
  rw [List.append_cancel_right_eq] at ids
  exact String.toList_inj.mp ids

/-- A signature has the severity and the template of an occurrence. -/
theorem exists_occurrence {occurrences : List Occurrence}
    {group : (String × String) × List Occurrence} (listed : group ∈ signatureGroups occurrences) :
    ∃ occurrence ∈ occurrences, signatureKey occurrence = group.1 := by
  obtain ⟨key, members⟩ := group
  obtain ⟨nonempty, rfl⟩ := (mem_toList_foldl_pushEntry_keyed
    (fun occurrence => some (signatureKey occurrence)) occurrences).mp listed
  obtain ⟨occurrence, member⟩ := List.exists_mem_of_ne_nil _ nonempty
  rw [List.mem_filter, decide_eq_true_eq, Option.some_inj] at member
  exact ⟨occurrence, member.1, member.2⟩

/-- A signature is told by its key. -/
theorem group_eq_of_key {occurrences : List Occurrence}
    {group group' : (String × String) × List Occurrence}
    (listed : group ∈ signatureGroups occurrences)
    (listed' : group' ∈ signatureGroups occurrences) (same : group.1 = group'.1) :
    group = group' := by
  obtain ⟨key, members⟩ := group
  obtain ⟨key', members'⟩ := group'
  obtain rfl : key = key' := same
  have values := (Std.ExtTreeMap.mem_toList_iff_getElem?_eq_some.mp listed).symm.trans
    (Std.ExtTreeMap.mem_toList_iff_getElem?_eq_some.mp listed')
  rw [Option.some.inj values]

theorem partMark_not_mem_asStr (severity : Severity) : partMark ∉ severity.asStr.toList := by
  cases severity <;> decide

variable {group group' : (String × String) × List Occurrence}

/-- Signatures are told apart by their identities. -/
theorem group_eq_of_signatureId (apart : TellsApart env.blake3 (scanIdentities env site sourceId text))
    (listed : group ∈ signatureGroups (occurrencesOf env site text))
    (listed' : group' ∈ signatureGroups (occurrencesOf env site text))
    (same : signatureIdOf env site group.1 = signatureIdOf env site group'.1) : group = group' := by
  have hashed {group : (String × String) × List Occurrence}
      (listed : group ∈ signatureGroups (occurrencesOf env site text)) :
      signatureParts site group.1 ∈ scanIdentities env site sourceId text :=
    List.mem_flatMap.mpr ⟨group, listed, List.mem_cons_self⟩
  have plain {group : (String × String) × List Occurrence}
      (listed : group ∈ signatureGroups (occurrencesOf env site text)) :
      partMark ∉ group.1.1.toList := by
    obtain ⟨occurrence, -, key⟩ := exists_occurrence listed
    rw [← key]
    exact partMark_not_mem_asStr occurrence.severity
  have texts := apart _ (hashed listed) _ (hashed listed') (logStableId_eq_iff.mp same)
  exact group_eq_of_key listed listed' (signatureParts_inj (plain listed) (plain listed') texts)

/-- Hours are told apart by their identities, also from those of other signatures. -/
theorem group_eq_of_bucketId (apart : TellsApart env.blake3 (scanIdentities env site sourceId text))
    (listed : group ∈ signatureGroups (occurrencesOf env site text))
    (listed' : group' ∈ signatureGroups (occurrencesOf env site text))
    {start start' : String} (kept : start ∈ (hourlyBuckets group.2).keys)
    (kept' : start' ∈ (hourlyBuckets group'.2).keys)
    (same : logStableId env.blake3
        (bucketParts site sourceId (signatureIdOf env site group.1) start) =
      logStableId env.blake3
        (bucketParts site sourceId (signatureIdOf env site group'.1) start')) :
    group = group' ∧ start = start' := by
  have hashed {group : (String × String) × List Occurrence} {start : String}
      (listed : group ∈ signatureGroups (occurrencesOf env site text))
      (kept : start ∈ (hourlyBuckets group.2).keys) :
      bucketParts site sourceId (signatureIdOf env site group.1) start ∈
        scanIdentities env site sourceId text :=
    List.mem_flatMap.mpr ⟨group, listed,
      List.mem_cons_of_mem _ (List.mem_append_left _ (List.mem_map_of_mem kept))⟩
  have texts := apart _ (hashed listed kept) _ (hashed listed' kept') (logStableId_eq_iff.mp same)
  obtain ⟨ids, starts⟩ := bucketParts_inj
    ((length_logStableId _).trans (length_logStableId _).symm) texts
  exact ⟨group_eq_of_signatureId apart listed listed' ids, starts⟩

/-- Exemplars are told from those of other signatures. -/
theorem group_eq_of_eventId (apart : TellsApart env.blake3 (scanIdentities env site sourceId text))
    (listed : group ∈ signatureGroups (occurrencesOf env site text))
    (listed' : group' ∈ signatureGroups (occurrencesOf env site text))
    {exemplar exemplar' : (String × String) × Occurrence} (kept : exemplar ∈ exemplars env group.2)
    (kept' : exemplar' ∈ exemplars env group'.2)
    (same : logStableId env.blake3
        (eventParts site (signatureIdOf env site group.1) exemplar.1) =
      logStableId env.blake3
        (eventParts site (signatureIdOf env site group'.1) exemplar'.1)) : group = group' := by
  have hashed {group : (String × String) × List Occurrence}
      {exemplar : (String × String) × Occurrence}
      (listed : group ∈ signatureGroups (occurrencesOf env site text))
      (kept : exemplar ∈ exemplars env group.2) :
      eventParts site (signatureIdOf env site group.1) exemplar.1 ∈
        scanIdentities env site sourceId text :=
    List.mem_flatMap.mpr ⟨group, listed,
      List.mem_cons_of_mem _ (List.mem_append_right _ (List.mem_map.mpr ⟨exemplar, kept, rfl⟩))⟩
  have texts := apart _ (hashed listed kept) _ (hashed listed' kept') (logStableId_eq_iff.mp same)
  exact group_eq_of_signatureId apart listed listed'
    (eventParts_inj ((length_logStableId _).trans (length_logStableId _).symm) texts)

end Scan

end Egregore.LogGraph
