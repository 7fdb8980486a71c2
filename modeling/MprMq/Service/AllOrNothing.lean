import Mathlib.Data.List.Nodup
import MprMq.Service.Transcoder
set_option autoImplicit false

/-! When the transcoder handler is all or nothing. -/

namespace MprMq.Service
open MprMq.Base

def HasTsExtension (name : Text) : Prop := ".ts".toList <:+ toLowerASCII name

theorem isTs_iff (e : DirEntry) : isTs e.name = true ↔ HasTsExtension e.name := by
  have hvalue : (FilePath.ofText e.name).value = e.name := FilePath.ofText_of_notMem e.noNul
  unfold isTs HasTsExtension
  by_cases hpar : e.name = "..".toList
  · simp only [hpar]
    decide
  by_cases hcur : e.name = ".".toList
  · simp only [hcur]
    decide
  simp only [hpar,hcur,ne_eq,not_false_eq_true,decide_true,Bool.true_and,decide_eq_true_eq]
  rw [compare_eq_zero]
  have h := FilePath.extension_lower_iff (FilePath.ofText e.name) "ts".toList
    (by rw [hvalue]; exact e.noSeparator) (by rw [hvalue]; exact hcur)
    (by rw [hvalue]; exact hpar) (by simp [isExtensionSeparator]) (by decide)
  rw [hvalue] at h
  exact h

def TranscoderFields.encPath (f : TranscoderFields) : FilePath :=
  (FilePath.ofText f.videoTargetPath).dirName.appended "enc".toList

def Sent.isCbcOf (source : Text) : Sent → Bool
  | .cbcEncryptFile path _ _ => path = source
  | _ => false

/-- All that an `OK` stands for. -/
structure Complete (r : Remote) (f : TranscoderFields) (sent : List Sent) : Prop where
  segments : ∀ e ∈ r.listing.entries, HasTsExtension e.name →
    sent.countP (Sent.isCbcOf ((FilePath.ofText f.videoTargetPath).appended e.name).value) = 1
  source : ∃ target key, r.symmetricKey = some key ∧
    .ecbEncryptFile f.videoSourcePath target key ∈ sent
  videoKey : ∃ key data, r.symmetricKey = some key ∧ hexDecode key = some data ∧
    .writeFile (f.encPath.appended "video.key".toList).value data ∈ sent
  m3u8 : ∃ cipher content, r.cipher = some cipher ∧
    rewriteM3u8 r.m3u8Content cipher = some content ∧
    .writeFile (f.encPath.appended f.m3u8Name).value (bytes content) ∈ sent
  row : ∃ key keys target, r.symmetricKey = some key ∧ r.keyPair = some keys ∧
    .update ⟨keys.2,(f.encPath.appended f.m3u8Name).value,key,target,
      stringAsValue f.targetId⟩ ∈ sent

/-- After an error, the directory that was created is gone; after an `OK`, all is done. -/
def AllOrNothing (r : Remote) (f : TranscoderFields) (o : World × Exit) : Prop :=
  match o.2 with
  | .returned .ok => Complete r f o.1.sent
  | .returned (.error _ _) =>
    ∀ path, .createDirectory path ∈ o.1.sent → o.1.directory path = false
  | .aborted => True
  | .threw => True

def Listing.segments (l : Listing) : List DirEntry := l.entries.filter (fun e => isTs e.name)

/-- Nothing goes wrong before `PublicKeyEncrypt` is called. -/
structure Remote.Reaches (r : Remote) (f : TranscoderFields) : Prop where
  key : ∃ key data, r.symmetricKey = some key ∧ hexDecode key = some data ∧ data ≠ []
  keyPair : r.keyPair.isSome
  progress : ∀ p ∈ r.progress, (safeStrto64 p.1).1 = true ∧ (safeStrto64 p.2).1 = true
  transcoded : r.transcoded = true
  segments : ∀ n < r.listing.segments.length, r.cbcEncrypted n = true
  sourceName : isPathAbsolute
    (cString (FilePath.ofText f.videoSourcePath).baseName.value) = false
  source : r.ecbEncrypted = true
  m3u8Name : isPathAbsolute (cString f.m3u8Name) = false

/-- `PublicKeyEncrypt` succeeds, and the update throws no `DBException`. -/
def Remote.Ends (r : Remote) : Prop :=
  r.cipher.isSome ∧ (r.m3u8Content ≠ [] → r.update ≠ .dbException)

/-- Every occurrence that is replaced shortens what is left to look at. -/
theorem replaceAllLoop_isSome {search replace : Text} (hne : search ≠ []) {fuel : Nat}
    {source : Text} {pos : Nat} (hpos : pos ≤ source.length) (h : source.length-pos < fuel) :
    ∃ t, replaceAllLoop search replace fuel source pos = some t := by
  induction fuel generalizing source pos with
  | zero => omega
  | succ fuel ih =>
    unfold replaceAllLoop
    cases hf : find source search pos with
    | none => exact ⟨source,rfl⟩
    | some i =>
      obtain ⟨hle,hlen⟩ := find_bounds hne hf
      have hs : 0 < search.length := List.length_pos_iff.mpr hne
      have htake : (source.take i).length = i := by
        rw [List.length_take]
        omega
      apply ih
      · simp only [List.length_append,htake]
        omega
      · simp only [List.length_append,htake,List.length_drop]
        omega

theorem replaceAll_isSome (source search replace : Text) (hne : search ≠ []) :
    ∃ t, replaceAll source search replace = some t :=
  replaceAllLoop_isSome hne (Nat.zero_le _) (by omega)

theorem replaceAllLoop_nil_iff {search replace : Text} (hne : search ≠ [])
    (hrep : replace ≠ []) {fuel : Nat} {source t : Text} {pos : Nat}
    (h : replaceAllLoop search replace fuel source pos = some t) : t = [] ↔ source = [] := by
  induction fuel generalizing source pos with
  | zero => cases h
  | succ fuel ih =>
    unfold replaceAllLoop at h
    cases hf : find source search pos with
    | none =>
      rw [hf] at h
      rw [Option.some.inj h]
    | some i =>
      rw [hf] at h
      have hnil := ih h
      have hs : 0 < search.length := List.length_pos_iff.mpr hne
      have hlen := (find_bounds hne hf).2
      have hsource : source ≠ [] := by
        rintro rfl
        simp only [List.length_nil] at hlen
        omega
      simp only [List.append_eq_nil_iff,hrep,and_false,false_and,iff_false] at hnil
      exact iff_of_false hnil hsource

theorem rewriteM3u8_spec (content cipher : Text) :
    ∃ t, rewriteM3u8 content cipher = some t ∧ (t = [] ↔ content = []) := by
  obtain ⟨u,hu⟩ := replaceAll_isSome content "/orig/".toList "/enc/".toList (by decide)
  obtain ⟨t,ht⟩ := replaceAll_isSome u "#EXTM3U\n".toList
    ("#EXTM3U\n".toList ++ "#EXT-X-KEY:".toList ++ cipher ++ "\n".toList) (by decide)
  refine ⟨t,by simp only [rewriteM3u8,hu,Option.bind_some,ht],?_⟩
  rw [replaceAllLoop_nil_iff (by decide) (by simp) ht]
  exact replaceAllLoop_nil_iff (by decide) (by decide) hu

/-- What has nothing to do with the directory, a segment or the row. -/
def Sent.aside : Sent → Bool
  | .createDirectory _ | .cbcEncryptFile _ _ _ | .update _ => false
  | _ => true

theorem World.mem_send {w : World} {c d : Sent} (hc : c.aside = true) (hd : d.aside = false) :
    d ∈ (w.send c).sent ↔ d ∈ w.sent := by
  have hne : d ≠ c := by
    rintro rfl
    rw [hc] at hd
    cases hd
  simp [World.send,hne]

theorem World.countP_send {w : World} {c : Sent} (hc : c.aside = true) (source : Text) :
    (w.send c).sent.countP (Sent.isCbcOf source) = w.sent.countP (Sent.isCbcOf source) := by
  have hcbc : c.isCbcOf source = false := by
    cases c <;> first | rfl | cases hc
  simp [World.send,List.countP_append,hcbc]

structure Job.Keyed (j : Job) : Prop where
  cbc : j.remote.symmetricKey = some j.cbcKey
  sm2 : j.remote.keyPair = some (j.publicKey,j.privateKey)

/-- The enc directory is there, and the segments were sent. -/
structure Job.Encrypted (j : Job) (w : World) : Prop where
  created : ∀ path, .createDirectory path ∈ w.sent ↔ path = j.fields.encPath.value
  kept : w.directory j.fields.encPath.value = true
  rowless : ∀ row, .update row ∉ w.sent
  segments : ∀ e ∈ j.remote.listing.entries, HasTsExtension e.name →
    w.sent.countP (Sent.isCbcOf (j.origPath.appended e.name).value) = 1

theorem Job.Encrypted.send {j : Job} {w : World} (h : j.Encrypted w) {c : Sent}
    (hc : c.aside = true) : j.Encrypted (w.send c) where
  created := fun path => (World.mem_send hc rfl).trans (h.created path)
  kept := h.kept
  rowless := fun row hmem => h.rowless row ((World.mem_send hc rfl).mp hmem)
  segments := fun e he hts => (World.countP_send hc _).trans (h.segments e he hts)

/-- With the enc directory still there, an error is not all or nothing. -/
theorem Job.Encrypted.not_error {j : Job} {w : World} (h : j.Encrypted w) (text : String) :
    ¬ AllOrNothing j.remote j.fields (w,internal text) := by
  intro hp
  have hgone := hp _ ((h.created _).mpr rfl)
  rw [h.kept] at hgone
  cases hgone

def Job.SourceSent (j : Job) (w : World) : Prop :=
  ∃ target, .ecbEncryptFile j.fields.videoSourcePath target j.cbcKey ∈ w.sent

def Job.KeyWritten (j : Job) (w : World) : Prop :=
  ∃ data, hexDecode j.cbcKey = some data ∧
    .writeFile (j.fields.encPath.appended "video.key".toList).value data ∈ w.sent

theorem Job.SourceSent.send {j : Job} {w : World} (h : j.SourceSent w) (c : Sent) :
    j.SourceSent (w.send c) := by
  obtain ⟨target,h⟩ := h
  exact ⟨target,List.mem_append_left _ h⟩

theorem Job.KeyWritten.send {j : Job} {w : World} (h : j.KeyWritten w) (c : Sent) :
    j.KeyWritten (w.send c) := by
  obtain ⟨data,hdata,h⟩ := h
  exact ⟨data,hdata,List.mem_append_left _ h⟩

theorem updateRow_iff {j : Job} {w : World} {full encM3u8 : FilePath} {cipher content : Text}
    (hj : j.Keyed) (he : j.Encrypted w) (hs : j.SourceSent w) (hk : j.KeyWritten w)
    (hcipher : j.remote.cipher = some cipher)
    (hcontent : rewriteM3u8 j.remote.m3u8Content cipher = some content)
    (hpath : encM3u8 = j.fields.encPath.appended j.fields.m3u8Name)
    (hm : .writeFile encM3u8.value (bytes content) ∈ w.sent) :
    AllOrNothing j.remote j.fields (updateRow j encM3u8 full w) ↔
      j.remote.update ≠ .dbException := by
  unfold updateRow
  cases hu : j.remote.update with
  | executed =>
    refine iff_of_true ?_ (by simp)
    subst hpath
    obtain ⟨target,hs⟩ := hs
    obtain ⟨data,hdata,hk⟩ := hk
    exact
      { segments := fun e hmem hts => by
          simp only [World.send,List.countP_append,List.countP_singleton,Sent.isCbcOf]
          exact he.segments e hmem hts
        source := ⟨target,j.cbcKey,hj.cbc,List.mem_append_left _ hs⟩
        videoKey := ⟨j.cbcKey,data,hj.cbc,hdata,List.mem_append_left _ hk⟩
        m3u8 := ⟨cipher,content,hcipher,hcontent,List.mem_append_left _ hm⟩
        row := ⟨j.cbcKey,(j.publicKey,j.privateKey),full.value,hj.cbc,hj.sm2,
          List.mem_append_right _ (List.mem_singleton.mpr rfl)⟩ }
  | dbException =>
    refine iff_of_false ?_ (by simp)
    intro h
    obtain ⟨_,_,_,-,-,hrow⟩ := Complete.row h
    exact he.rowless _ hrow
  | otherException => exact iff_of_true trivial (by simp)

theorem writeFile_eq (w : World) (path : Text) {data : List UInt8} (h : data ≠ []) :
    w.writeFile path data = some (w.send (.writeFile path data)) := if_neg h

theorem writeM3u8_iff {j : Job} {w : World} {full : FilePath} {cipher : Text} (hj : j.Keyed)
    (he : j.Encrypted w) (hs : j.SourceSent w) (hk : j.KeyWritten w)
    (hcipher : j.remote.cipher = some cipher)
    (hname : isPathAbsolute (cString j.fields.m3u8Name) = false) :
    AllOrNothing j.remote j.fields (writeM3u8 j j.fields.encPath full cipher w) ↔
      (j.remote.m3u8Content ≠ [] → j.remote.update ≠ .dbException) := by
  obtain ⟨content,hcontent,hnil⟩ := rewriteM3u8_spec j.remote.m3u8Content cipher
  unfold writeM3u8
  rw [FilePath.append_relative _ hname,hcontent]
  dsimp only
  by_cases hempty : content = []
  · have hm3u8 := hnil.mp hempty
    subst hempty
    exact iff_of_true trivial (fun h => absurd hm3u8 h)
  · have hbytes : bytes content ≠ [] := by simpa [bytes] using hempty
    have hm3u8 : j.remote.m3u8Content ≠ [] := fun h => hempty (hnil.mpr h)
    rw [writeFile_eq w _ hbytes]
    dsimp only
    rw [updateRow_iff hj (he.send rfl) (hs.send _) (hk.send _)
      hcipher hcontent rfl (List.mem_append_right _ (List.mem_singleton.mpr rfl))]
    exact ⟨fun h _ => h,fun h => h hm3u8⟩

theorem encryptUrl_iff {j : Job} {w : World} {full : FilePath} (hj : j.Keyed)
    (he : j.Encrypted w) (hs : j.SourceSent w) (hk : j.KeyWritten w)
    (hname : isPathAbsolute (cString j.fields.m3u8Name) = false) :
    AllOrNothing j.remote j.fields (encryptUrl j j.fields.encPath full w) ↔
      j.remote.Ends := by
  dsimp only [encryptUrl,Remote.Ends]
  rw [FilePath.append_relative _ (by decide),Option.bind_some,
    FilePath.append_relative _ (by decide)]
  dsimp only
  cases hcipher : j.remote.cipher with
  | none =>
    refine iff_of_false ?_ (by simp)
    exact (he.send rfl).not_error _
  | some cipher =>
    dsimp only
    rw [writeM3u8_iff hj (he.send rfl) (hs.send _) (hk.send _)
      hcipher hname]
    simp

theorem writeKey_iff {j : Job} {w : World} {full : FilePath} (hj : j.Keyed)
    (he : j.Encrypted w) (hs : j.SourceSent w) :
    AllOrNothing j.remote j.fields (writeKey j j.fields.encPath full w) ↔
      (isPathAbsolute (cString j.fields.m3u8Name) = false →
        (∃ data, hexDecode j.cbcKey = some data ∧ data ≠ []) → j.remote.Ends) := by
  unfold writeKey
  have hkeyName : isPathAbsolute (cString "video.key".toList) = false := by decide
  rw [FilePath.append_relative j.fields.encPath hkeyName]
  by_cases hname : isPathAbsolute (cString j.fields.m3u8Name) = false
  · rw [FilePath.append_relative j.origPath hname]
    cases hdata : hexDecode j.cbcKey with
    | none => exact iff_of_true trivial (fun _ ⟨_,h,_⟩ => by cases h)
    | some data =>
      dsimp only
      by_cases hempty : data = []
      · subst hempty
        refine iff_of_true trivial (fun _ ⟨d,hd,hne⟩ => ?_)
        exact absurd (Option.some.inj hd).symm hne
      · rw [writeFile_eq w _ hempty]
        dsimp only
        rw [encryptUrl_iff hj (he.send rfl) (hs.send _)
          ⟨data,hdata,List.mem_append_right _ (List.mem_singleton.mpr rfl)⟩ hname]
        exact ⟨fun h _ _ => h,fun h => h hname ⟨data,rfl,hempty⟩⟩
  · have habort : j.origPath.append j.fields.m3u8Name = none := by
      simpa [FilePath.append] using hname
    rw [habort]
    exact iff_of_true trivial (fun h => absurd h hname)

/-- The error branches that clean up: the one directory that was created is gone. -/
theorem deleted_all_or_nothing {j : Job} {w : World} (text : String)
    (h : ∀ path, .createDirectory path ∈ w.sent → path = j.fields.encPath.value) :
    AllOrNothing j.remote j.fields (w.deleteFile j.fields.encPath.value,internal text) := by
  intro path hpath
  obtain rfl := h path hpath
  simp [World.deleteFile]

theorem encryptSource_iff {j : Job} {w : World} (hj : j.Keyed) (he : j.Encrypted w) :
    AllOrNothing j.remote j.fields (encryptSource j j.fields.encPath w) ↔
      (isPathAbsolute (cString (FilePath.ofText j.fields.videoSourcePath).baseName.value) = false →
        j.remote.ecbEncrypted = true → isPathAbsolute (cString j.fields.m3u8Name) = false →
        (∃ data, hexDecode j.cbcKey = some data ∧ data ≠ []) → j.remote.Ends) := by
  dsimp only [encryptSource]
  by_cases hname : isPathAbsolute
      (cString (FilePath.ofText j.fields.videoSourcePath).baseName.value) = false
  · rw [FilePath.append_relative _ hname]
    dsimp only
    have he' := he.send (c := .ecbEncryptFile j.fields.videoSourcePath
      (j.fields.encPath.appended (FilePath.ofText j.fields.videoSourcePath).baseName.value).value
      j.cbcKey) rfl
    split
    case isTrue hecb =>
      rw [writeKey_iff hj he' ⟨_,List.mem_append_right _ (List.mem_singleton.mpr rfl)⟩]
      exact ⟨fun h _ _ => h,fun h => h hname hecb⟩
    case isFalse hecb =>
      exact iff_of_true (deleted_all_or_nothing _ (fun path h => (he'.created path).mp h))
        (fun _ h => absurd h hecb)
  · have habort : j.fields.encPath.append
        (FilePath.ofText j.fields.videoSourcePath).baseName.value = none := by
      simpa [FilePath.append] using hname
    rw [habort]
    exact iff_of_true trivial (fun h => absurd h hname)

theorem DirEntry.relative (e : DirEntry) : isPathAbsolute (cString e.name) = false := by
  rw [cString_of_notMem e.noNul]
  cases h : e.name with
  | nil => rfl
  | cons c rest => exact e.noSeparator c (by simp [h])

def Job.cbcRequest (j : Job) (encPath : FilePath) (e : DirEntry) : Sent :=
  .cbcEncryptFile (j.origPath.appended e.name).value (encPath.appended e.name).value j.cbcKey

/-- The loop that meets no failure sends one request for each segment. -/
theorem encryptLoop_all {j : Job} {encPath : FilePath} {entries : List DirEntry} {n : Nat}
    {w : World}
    (h : ∀ i < (entries.filter (fun e => isTs e.name)).length,
      j.remote.cbcEncrypted (n+i) = true) :
    encryptLoop j encPath entries n w =
      ({ w with sent := w.sent ++
        (entries.filter (fun e => isTs e.name)).map (j.cbcRequest encPath) },none) := by
  induction entries generalizing n w with
  | nil => simp [encryptLoop]
  | cons e rest ih =>
    unfold encryptLoop
    by_cases hts : isTs e.name = true
    · rw [List.filter_cons_of_pos (by simpa using hts)] at h ⊢
      have hfirst : j.remote.cbcEncrypted n = true := h 0 (by simp)
      have hrest : ∀ i < (rest.filter (fun e => isTs e.name)).length,
          j.remote.cbcEncrypted (n+1+i) = true := by
        intro i hi
        have := h (i+1) (by simpa using hi)
        rwa [show n+1+i = n+(i+1) by omega]
      simp only [hts,if_true,FilePath.append_relative _ e.relative,hfirst]
      rw [ih hrest]
      simp [World.send,Job.cbcRequest]
    · rw [List.filter_cons_of_neg (by simpa using hts)] at h ⊢
      simp only [hts]
      exact ih h

/-- The loop that meets a failure deletes the enc directory; it sent such requests only. -/
theorem encryptLoop_fails {j : Job} (encPath : FilePath) {entries : List DirEntry} {n : Nat}
    {w : World}
    (h : ∃ i < (entries.filter (fun e => isTs e.name)).length,
      j.remote.cbcEncrypted (n+i) = false) :
    ∃ u : World, encryptLoop j encPath entries n w =
        (u.deleteFile encPath.value,some (internal "encrypt_file error")) ∧
      ∀ path, .createDirectory path ∈ u.sent → .createDirectory path ∈ w.sent := by
  induction entries generalizing n w with
  | nil =>
    obtain ⟨i,hi,-⟩ := h
    simp at hi
  | cons e rest ih =>
    unfold encryptLoop
    by_cases hts : isTs e.name = true
    · rw [List.filter_cons_of_pos (by simpa using hts)] at h
      simp only [hts,if_true,FilePath.append_relative _ e.relative]
      by_cases hfirst : j.remote.cbcEncrypted n = true
      · rw [if_pos hfirst]
        have hrest : ∃ i < (rest.filter (fun e => isTs e.name)).length,
            j.remote.cbcEncrypted (n+1+i) = false := by
          obtain ⟨i,hi,hfail⟩ := h
          cases i with
          | zero =>
            rw [Nat.add_zero,hfirst] at hfail
            cases hfail
          | succ i =>
            exact ⟨i,by simpa using hi,by rwa [show n+1+i = n+(i+1) by omega]⟩
        obtain ⟨u,hu,hsent⟩ := ih hrest
        refine ⟨u,hu,fun path hpath => ?_⟩
        simpa [World.send] using hsent path hpath
      · rw [if_neg hfirst]
        exact ⟨_,rfl,fun path hpath => by simpa [World.send] using hpath⟩
    · rw [List.filter_cons_of_neg (by simpa using hts)] at h
      simp only [hts]
      exact ih h

theorem segments_once {j : Job} {listing : Listing} {encPath : FilePath} {sent : List Sent}
    (hsent : ∀ source, sent.countP (Sent.isCbcOf source) = 0) {e : DirEntry}
    (he : e ∈ listing.entries) (hts : HasTsExtension e.name) :
    (sent ++ listing.segments.map (j.cbcRequest encPath)).countP
      (Sent.isCbcOf (j.origPath.appended e.name).value) = 1 := by
  rw [List.countP_append,hsent,Nat.zero_add,List.countP_map]
  have hmem : e ∈ listing.segments :=
    List.mem_filter.mpr ⟨he,by simpa using (isTs_iff e).mpr hts⟩
  have hnodup : listing.segments.Nodup := listing.distinct.filter _
  rw [← List.count_eq_one_of_mem hnodup hmem,List.count]
  apply List.countP_congr
  intro d _
  simp only [Function.comp_apply,Job.cbcRequest,Sent.isCbcOf,decide_eq_true_eq,beq_iff_eq]
  constructor
  · intro h
    exact DirEntry.ext (FilePath.appended_injective _ d.noNul e.noNul d.nonempty e.nonempty h)
  · rintro rfl
    rfl

structure World.Fresh (w : World) : Prop where
  uncreated : ∀ path, .createDirectory path ∉ w.sent
  unsent : ∀ source, w.sent.countP (Sent.isCbcOf source) = 0
  rowless : ∀ row, .update row ∉ w.sent

theorem World.Fresh.send {w : World} (h : w.Fresh) {c : Sent} (hc : c.aside = true) :
    (w.send c).Fresh where
  uncreated := fun path hmem => h.uncreated path ((World.mem_send hc rfl).mp hmem)
  unsent := fun source => (World.countP_send hc source).trans (h.unsent source)
  rowless := fun row hmem => h.rowless row ((World.mem_send hc rfl).mp hmem)

theorem World.Fresh.error {w : World} (h : w.Fresh) (r : Remote) (f : TranscoderFields)
    (text : String) : AllOrNothing r f (w,internal text) :=
  fun path hpath => absurd hpath (h.uncreated path)

theorem mem_subpaths (n : Nat) (path : FilePath) : path.value ∈ subpaths n path := by
  cases n with
  | zero => exact List.mem_singleton.mpr rfl
  | succ n =>
    unfold subpaths
    split <;> simp

/-- With the requests for the segments sent, the stage after the loop starts. -/
theorem Job.encrypted_of_loop {j : Job} {w : World} (hw : w.Fresh) (mode : Nat) :
    j.Encrypted
      { ((w.createDirectory j.fields.encPath).send
          (.setPosixFilePermissions j.fields.encPath.value mode)) with
        sent := ((w.createDirectory j.fields.encPath).send
          (.setPosixFilePermissions j.fields.encPath.value mode)).sent ++
            j.remote.listing.segments.map (j.cbcRequest j.fields.encPath) } where
  created := fun path => by
    have := hw.uncreated path
    simp [World.send,World.createDirectory,Job.cbcRequest,this]
  kept := by simp [World.send,World.createDirectory,mem_subpaths]
  rowless := fun row => by
    have := hw.rowless row
    simp [World.send,World.createDirectory,Job.cbcRequest,this]
  segments := fun e he hts => by
    refine segments_once (fun source => ?_) he hts
    simp [World.send,World.createDirectory,List.countP_append,hw.unsent source,Sent.isCbcOf]

theorem encryptSegments_iff {j : Job} {w : World} (hj : j.Keyed) (hw : w.Fresh) :
    AllOrNothing j.remote j.fields (encryptSegments j w) ↔
      ((∀ n < j.remote.listing.segments.length, j.remote.cbcEncrypted n = true) →
        isPathAbsolute (cString (FilePath.ofText j.fields.videoSourcePath).baseName.value) =
          false →
        j.remote.ecbEncrypted = true → isPathAbsolute (cString j.fields.m3u8Name) = false →
        (∃ data, hexDecode j.cbcKey = some data ∧ data ≠ []) → j.remote.Ends) := by
  have henc : j.origPath.dirName.append "enc".toList = some j.fields.encPath :=
    FilePath.append_relative _ (by decide)
  dsimp only [encryptSegments]
  rw [henc]
  dsimp only
  generalize hv : (if w.directory j.fields.encPath.value then
    w.deleteFile j.fields.encPath.value else w) = v
  have hfresh : v.Fresh := by
    subst hv
    split
    · exact ⟨hw.uncreated,hw.unsent,hw.rowless⟩
    · exact hw
  by_cases hall : ∀ n < j.remote.listing.segments.length, j.remote.cbcEncrypted n = true
  · rw [encryptLoop_all (fun i hi => by rw [Nat.zero_add]; exact hall i hi)]
    dsimp only
    rw [show j.remote.listing.entries.filter (fun e => isTs e.name) =
      j.remote.listing.segments from rfl,
      encryptSource_iff hj (Job.encrypted_of_loop hfresh filePermissionMask)]
    exact ⟨fun h _ => h,fun h => h hall⟩
  · have hfail : ∃ i < j.remote.listing.segments.length,
        j.remote.cbcEncrypted (0+i) = false := by
      push Not at hall
      obtain ⟨i,hi,hf⟩ := hall
      exact ⟨i,hi,by simpa using hf⟩
    obtain ⟨u,hu,hsent⟩ := encryptLoop_fails j.fields.encPath
      (w := (v.createDirectory j.fields.encPath).send
        (.setPosixFilePermissions j.fields.encPath.value filePermissionMask)) hfail
    rw [hu]
    refine iff_of_true (deleted_all_or_nothing _ (fun path hpath => ?_))
      (fun h => absurd h hall)
    have := hsent path hpath
    have hnot := hfresh.uncreated path
    simpa [World.send,World.createDirectory,hnot] using this

theorem handleFields_iff (r : Remote) (f : TranscoderFields) {w : World} (hw : w.Fresh) :
    AllOrNothing r f (handleFields r f w) ↔ (r.Reaches f → r.Ends) := by
  have hw0 : World.Fresh { w with output := "hello, world".toList } :=
    ⟨hw.uncreated,hw.unsent,hw.rowless⟩
  have hw1 := hw0.send (c := .createSymmetricKey) rfl
  dsimp only [handleFields]
  cases hkey : r.symmetricKey with
  | none =>
    refine iff_of_true (hw1.error r f _) (fun h => ?_)
    obtain ⟨key,_,hsome,-⟩ := h.key
    rw [hkey] at hsome
    cases hsome
  | some cbcKey =>
    have hw2 := hw1.send (c := .createKeyPair) rfl
    dsimp only
    cases hpair : r.keyPair with
    | none =>
      refine iff_of_true (hw2.error r f _) (fun h => ?_)
      have := h.keyPair
      rw [hpair] at this
      cases this
    | some keys =>
      obtain ⟨publicKey,privateKey⟩ := keys
      have hw3 := hw2.send (c := .transcode f.request) rfl
      dsimp only [transcode]
      by_cases hprogress : r.progress.all
          (fun p => (safeStrto64 p.1).1 && (safeStrto64 p.2).1) = true
      · rw [if_pos hprogress]
        by_cases htrans : r.transcoded = true
        · rw [if_pos htrans]
          refine (encryptSegments_iff (j := ⟨f,r,cbcKey,publicKey,privateKey⟩) ⟨hkey,hpair⟩
            hw3).trans ?_
          constructor
          · intro h hr
            obtain ⟨key,data,hsome,hdata⟩ := hr.key
            rw [hkey] at hsome
            obtain rfl := Option.some.inj hsome
            exact h hr.segments hr.sourceName hr.source hr.m3u8Name ⟨data,hdata⟩
          · rintro h hseg hsource hecb hname ⟨data,hdata⟩
            exact h
              { key := ⟨cbcKey,data,hkey,hdata⟩
                keyPair := by rw [hpair]; rfl
                progress := by simpa using hprogress
                transcoded := htrans
                segments := hseg
                sourceName := hsource
                source := hecb
                m3u8Name := hname }
        · rw [if_neg htrans]
          exact iff_of_true (hw3.error r f _) (fun h => absurd h.transcoded htrans)
      · rw [if_neg hprogress]
        exact iff_of_true trivial
          (fun h => absurd (by simpa using h.progress) hprogress)

def sampleFields : TranscoderFields :=
  ⟨"/v/a.mp4".toList,"/v/orig".toList,"1".toList,"44100".toList,"1x1".toList,"1".toList,
    "25".toList,"1".toList,"5".toList,"/u/orig/".toList,"a.m3u8".toList⟩

def sampleMessage : Text :=
  '\x7b' :: [','].intercalate (sampleFields.named.map
    (fun p => ['"'] ++ p.1 ++ "\":\"".toList ++ p.2 ++ ['"'])) ++ ['\x7d']

def parseSample (_ : Text) : Option Json :=
  some (.object (sampleFields.named.map (fun p => (p.1,.string p.2))))

def sampleRemote (cipher : Option Text) (update : UpdateResult) : Remote :=
  ⟨some "00".toList,some ("p".toList,"q".toList),[("9".toList,"9".toList)],true,
    ⟨[⟨"1.TS".toList,by decide,by decide,by simp [isSeparator]⟩],List.nodup_singleton _⟩,
    fun _ => true,true,cipher,"#EXTM3U\n".toList,update⟩

theorem parseSample_proceeds (message : Text) :
    readTranscoder parseSample message = .proceeds sampleFields := by
  unfold readTranscoder parseSample
  rfl

theorem sampleRemote_reaches (cipher : Option Text) (update : UpdateResult) :
    (sampleRemote cipher update).Reaches sampleFields where
  key := ⟨"00".toList,[0],rfl,by decide,by decide⟩
  keyPair := rfl
  progress := by
    intro p hp
    obtain rfl := List.mem_singleton.mp hp
    decide
  transcoded := rfl
  segments := fun _ _ => rfl
  sourceName := by decide
  source := rfl
  m3u8Name := by decide

/-- A fresh call on a message whose fields are there is all or nothing exactly when it
fails before `PublicKeyEncrypt`, or that and the update go well. -/
theorem handle_all_or_nothing (parse : Text → Option Json) (r : Remote) (message : Text)
    (directory : Text → Bool) (output : Text) (f : TranscoderFields)
    (h : readTranscoder parse message = .proceeds f) :
    AllOrNothing r f (handle parse r message ⟨directory,[],output⟩) ↔
      (r.Reaches f → r.Ends) := by
  unfold handle
  rw [h]
  exact handleFields_iff r f ⟨by simp,by simp,by simp⟩

theorem sample_all_done : AllOrNothing (sampleRemote (some "c".toList) .executed) sampleFields
    (handle parseSample (sampleRemote (some "c".toList) .executed) sampleMessage
      ⟨fun _ => false,[],[]⟩) :=
  (handle_all_or_nothing parseSample (sampleRemote (some "c".toList) .executed) sampleMessage
    (fun _ => false) [] sampleFields (parseSample_proceeds sampleMessage)).mpr
    (fun _ => ⟨rfl,fun _ => by decide⟩)

/-- `PublicKeyEncrypt` fails and the enc directory stays; the update throws and the
answer is `OK`. -/
theorem failures_left_behind :
    readTranscoder parseSample sampleMessage = .proceeds sampleFields ∧
    ¬ AllOrNothing (sampleRemote none .executed) sampleFields
      (handle parseSample (sampleRemote none .executed) sampleMessage ⟨fun _ => false,[],[]⟩) ∧
    ¬ AllOrNothing (sampleRemote (some "c".toList) .dbException) sampleFields
      (handle parseSample (sampleRemote (some "c".toList) .dbException) sampleMessage
        ⟨fun _ => false,[],[]⟩) := by
  have hiff : ∀ r : Remote, AllOrNothing r sampleFields
      (handle parseSample r sampleMessage ⟨fun _ => false,[],[]⟩) ↔
        (r.Reaches sampleFields → r.Ends) := by
    intro r
    unfold handle
    rw [parseSample_proceeds sampleMessage]
    exact handleFields_iff r sampleFields ⟨by simp,by simp,by simp⟩
  refine ⟨parseSample_proceeds sampleMessage,?_,?_⟩
  · intro h
    have hends := (hiff _).mp h (sampleRemote_reaches _ _)
    exact absurd hends.1 (by decide)
  · intro h
    have hends := (hiff _).mp h (sampleRemote_reaches _ _)
    exact hends.2 (by decide) rfl

end MprMq.Service
