import Pagewright.Deploy.ManifestJson
import Pagewright.Proofs.Entries
import Pagewright.Proofs.JsonReading
import Pagewright.Proofs.Outcome
import Pagewright.Proofs.TimestampReading

/-!
# Reading back a manifest

What a manifest says survives its file: whatever texts stand in it, whatever the
sizes, however many files and facts, and whenever it was made, the reader makes
the same manifest of its text.
-/

namespace Pagewright

open Outcome

variable {strict : Bool} {names : List String} {fields : List (String × Json)}

namespace Json

/-! ### Records -/

private theorem gather_distinct (known : ∀ field ∈ fields, field.1 ∈ names)
    (distinct : (fields.map Prod.fst).Nodup) : gather names strict fields = .ok fields := by
  induction fields with
  | nil => rfl
  | cons field rest ih =>
    obtain ⟨name, value⟩ := field
    obtain ⟨fresh, restDistinct⟩ := List.nodup_cons.mp distinct
    have once : rest.lookup name = none := by
      rw [List.lookup_eq_none_iff]
      intro entry member
      have apart : entry.1 ≠ name := ne_of_mem_of_not_mem (List.mem_map_of_mem member) fresh
      simpa using apart.symm
    have listed : name ∈ names := known (name, value) List.mem_cons_self
    have others := ih (List.forall_mem_cons.mp known).2 restDistinct
    simp [gather, listed, once, others]

/-- An object with a field for each name is a record of these names. -/
theorem record_object (named : fields.map Prod.fst = names) (distinct : names.Nodup) :
    record names strict (.object fields) = .ok fields := by
  subst named
  exact gather_distinct (fun field member => List.mem_map_of_mem member) distinct

private theorem size_ofNat (size : UInt64) : Json.size (.ofNat size.toNat) = .ok size := by
  have word : word? (.ofNat size.toNat) = some size.toNat := by
    rw [ofNat, word?, Nat.toString_eq_ofList_toDigits, String.toList_ofList]
    exact wordValue?_toDigits size.toNat_lt_size
  rw [Json.size, expect, word]
  simp [Except.map]

end Json

private theorem Origin.ofJson_name (origin : Origin) :
    Origin.ofJson (.text origin.name) = .ok origin := by
  cases origin <;> rfl

private theorem ManifestFile.ofJson_toJson (file : ManifestFile) :
    ManifestFile.ofJson file.toJson = .ok file := by
  refine except_bind_ok.mpr ⟨_, Json.record_object rfl (by decide), ?_⟩
  refine except_bind_ok.mpr ⟨file.path, rfl, ?_⟩
  refine except_bind_ok.mpr ⟨file.size, Json.size_ofNat file.size, ?_⟩
  refine except_bind_ok.mpr ⟨file.hash, rfl, ?_⟩
  exact except_bind_ok.mpr ⟨file.origin, Origin.ofJson_name file.origin, rfl⟩

private theorem ManifestFile.toJson_plain (file : ManifestFile) : file.toJson.Plain :=
  .object (by simp [Json.Plain.text, Json.Plain.number])

namespace Manifest

private theorem metadataOfJson_map {metadata : Entries String} (ordered : metadata.Ordered) :
    metadataOfJson (.object (metadata.map fun (name, value) => (name, .text value))) =
      .ok metadata := by
  refine except_bind_ok.mpr ⟨_, rfl, except_bind_ok.mpr ⟨metadata, ?_, ?_⟩⟩
  · rw [except_mapM_ok, List.forall₂_map_left_iff, List.forall₂_same]
    intro fact _
    rfl
  · rw [ordered.ofList_eq]
    rfl

private theorem timestampOfJson_render {timestamp : Timestamp} (valid : timestamp.isValid)
    (fits : timestamp.nanosecond < 1000000000) :
    timestampOfJson (.text timestamp.render) = .ok timestamp := by
  have read := Timestamp.parse?_render valid fits
  simp [timestampOfJson, Json.expect, Json.text?, read]

private theorem ofJson_toJson {manifest : Manifest} (ordered : manifest.metadata.Ordered)
    (valid : manifest.createdAt.isValid) (fits : manifest.createdAt.nanosecond < 1000000000) :
    ofJson manifest.toJson = .ok manifest := by
  have files : (manifest.files.map ManifestFile.toJson).mapM ManifestFile.ofJson =
      .ok manifest.files := by
    rw [except_mapM_ok, List.forall₂_map_left_iff, List.forall₂_same]
    exact fun file _ => file.ofJson_toJson
  refine except_bind_ok.mpr ⟨_, Json.record_object rfl (by decide), ?_⟩
  refine except_bind_ok.mpr ⟨manifest.version, rfl, ?_⟩
  refine except_bind_ok.mpr ⟨manifest.createdAt, timestampOfJson_render valid fits, ?_⟩
  refine except_bind_ok.mpr ⟨manifest.totalSize, Json.size_ofNat manifest.totalSize, ?_⟩
  refine except_bind_ok.mpr ⟨manifest.files, except_bind_ok.mpr ⟨_, rfl, files⟩, ?_⟩
  exact except_bind_ok.mpr ⟨manifest.metadata, metadataOfJson_map ordered, rfl⟩

private theorem toJson_plain (manifest : Manifest) : manifest.toJson.Plain := by
  have files : (Json.array (manifest.files.map ManifestFile.toJson)).Plain :=
    .array (by simp [ManifestFile.toJson_plain])
  have facts :
      (Json.object (manifest.metadata.map fun (name, value) => (name, .text value))).Plain := by
    refine .object (List.forall_mem_map.mpr ?_)
    exact fun fact _ => .text fact.2
  exact .object (by simp [contentFields, Json.Plain.text, Json.Plain.number, files, facts])

end Manifest

/-- The text of a manifest is the JSON of its fields, and the manifest is read back from it,
whatever its texts and sizes are and whenever it was made. -/
theorem manifest_read_back {manifest : Manifest} (ordered : manifest.metadata.Ordered)
    (valid : manifest.createdAt.isValid) (fits : manifest.createdAt.nanosecond < 1000000000) :
    Json.parse? manifest.render = some manifest.toJson ∧
      Manifest.parse manifest.render = .ok manifest := by
  have text : Json.parse? manifest.render = some manifest.toJson :=
    manifest.toJson_plain.parse?_pretty
  refine ⟨text, ?_⟩
  rw [Manifest.parse, text]
  exact Manifest.ofJson_toJson ordered valid fits

/-- Made in the last second before the first of March of year zero. -/
def oddManifest : Manifest where
  version := "\"1.0\" \\"
  createdAt := ⟨⟨0, 2, 29⟩, 23, 59, 59, 120⟩
  totalSize := 18446744073709551615
  files :=
    [⟨"a\tb.html", 18446744073709551615, "", .generated⟩, ⟨"größe/\x01\n", 0, "\\u0022", .copied⟩]
  metadata := [("", "\r"), ("名", "\\")]

theorem manifest_read_back_odd :
    oddManifest.metadata.Ordered ∧ oddManifest.createdAt.isValid ∧
      oddManifest.createdAt.nanosecond < 1000000000 ∧
      Manifest.parse oddManifest.render = .ok oddManifest :=
  ⟨by decide, by decide, by decide,
    (manifest_read_back (by decide) (by decide) (by decide)).2⟩

end Pagewright
