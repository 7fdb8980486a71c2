import MprMq.Base.DirReader
import MprMq.Service.AllOrNothing
set_option autoImplicit false

/-! The loop of the transcoder handler, over the `DirReader` that it is written with. -/

namespace MprMq.Service
open MprMq.Base Lib

def asText (name : List UInt8) : Text := name.map fun b => Char.ofNat b.toNat

theorem toNat_asText (b : UInt8) : (Char.ofNat b.toNat).toNat = b.toNat := by
  have hvalid : b.toNat.isValidChar := .inl (Nat.lt_trans b.toNat_lt (by decide))
  rw [Char.ofNat,dif_pos hvalid]
  rfl

theorem asText_injective : Function.Injective asText := by
  refine List.map_injective_iff.mpr fun b c h => UInt8.toNat_inj.mp ?_
  rw [← toNat_asText b,h,toNat_asText c]

theorem mem_asText {name : List UInt8} {c : Char} (h : c ∈ asText name) :
    UInt8.ofNat c.toNat ∈ name := by
  obtain ⟨b,hb,rfl⟩ := List.mem_map.mp h
  rwa [toNat_asText,UInt8.ofNat_toNat]

def entryOf (d : Dirent) : DirEntry where
  name := asText d.dName
  nonempty := fun h => d.nonempty (List.map_eq_nil_iff.mp h)
  noNul := fun h => d.noNul (mem_asText h)
  noSeparator := by
    intro c hc
    refine isSeparator_other ?_
    rintro rfl
    exact d.noSeparator (mem_asText hc)

/-- A directory as it is delivered: no name twice. -/
structure DeliveredDirectory where
  batches : List DirentBatch
  fails : Bool
  distinct : ((batches.flatMap DirentBatch.entries).map Dirent.dName).Nodup

namespace DeliveredDirectory

def dirents (directory : DeliveredDirectory) : List Dirent :=
  directory.batches.flatMap DirentBatch.entries

def reader (directory : DeliveredDirectory) : DirReader :=
  .opened directory.batches directory.fails

def listing (directory : DeliveredDirectory) : Listing where
  entries := directory.dirents.map entryOf
  distinct := by
    have hnames : (directory.dirents.map fun d => asText d.dName).Nodup := by
      have hmap := directory.distinct.map asText_injective
      rwa [List.map_map] at hmap
    refine List.Nodup.of_map DirEntry.name ?_
    rwa [List.map_map]

theorem ready (directory : DeliveredDirectory) : directory.reader.Ready directory.dirents :=
  .first List.length_replicate rfl rfl

end DeliveredDirectory

/-- The body of the loop of the handler, with the number of the request. -/
def encryptEntry (j : Job) (encPath : FilePath) (name : List UInt8) (state : Nat × World) :
    Turn (Nat × World) (World × Option Exit) :=
  let name := asText name
  if isTs name then
    match j.origPath.append name,encPath.append name with
    | some source,some target =>
      let w := state.2.send (.cbcEncryptFile source.value target.value j.cbcKey)
      if j.remote.cbcEncrypted state.1 then .next (state.1+1,w)
      else .done (w.deleteFile encPath.value,some (internal "encrypt_file error"))
    | _,_ => .done (state.2,some .aborted)
  else .next state

theorem overNames_encrypt (j : Job) (encPath : FilePath) (entries : List Dirent) (n : Nat)
    (w : World) :
    DirReader.overNames (encryptEntry j encPath) (fun state => (state.2,none))
        (entries.map Dirent.dName) (n,w) =
      encryptLoop j encPath (entries.map entryOf) n w := by
  induction entries generalizing n w with
  | nil => rfl
  | cons d rest ih =>
    have hname : (entryOf d).name = asText d.dName := rfl
    rw [List.map_cons,List.map_cons,DirReader.overNames,encryptLoop,encryptEntry,hname]
    by_cases hts : isTs (asText d.dName) = true
    · simp only [hts,if_true]
      cases j.origPath.append (asText d.dName) with
      | none => rfl
      | some source =>
        cases encPath.append (asText d.dName) with
        | none => rfl
        | some target =>
          cases j.remote.cbcEncrypted n with
          | false => rfl
          | true => exact ih (n+1) _
    · simp only [hts]
      exact ih n w

/-- However the directory is delivered, the loop sees its entries once each and in their order,
the cursor stays within what is filled, and the handler sends for every segment one request. -/
theorem directory_loop (directory : DeliveredDirectory) :
    (∀ (τ ρ : Type) (use : List UInt8 → τ → Turn τ ρ) (finish : τ → ρ) (t : τ),
      ∀ turns > directory.dirents.length,
        runLoop (DirReader.whileTurn use finish) turns (directory.reader,t) =
          some (DirReader.overNames use finish (directory.dirents.map Dirent.dName) t)) ∧
    (∀ more reader, DirReader.Reached directory.reader more reader →
      reader.offset ≤ reader.size ∧
      (more = true → ∃ before entry after, reader.At before entry after ∧
        reader.offset+entry.reclen ≤ reader.size ∧ reader.name = some entry.dName)) ∧
    ∀ j encPath w, ∃ r,
      (∀ turns > directory.dirents.length,
        runLoop (DirReader.whileTurn (encryptEntry j encPath) fun state => (state.2,none)) turns
          (directory.reader,(0,w)) = some r) ∧
      r = encryptLoop j encPath directory.listing.entries 0 w ∧
      ((∀ n, j.remote.cbcEncrypted n = true) → ∃ requests,
        r = ({ w with sent := w.sent ++ requests },none) ∧
        requests.length = directory.listing.segments.length ∧
        ∀ e ∈ directory.listing.entries, HasTsExtension e.name →
          requests.countP (Sent.isCbcOf (j.origPath.appended e.name).value) = 1) := by
  have hready := directory.ready
  refine ⟨?_,?_,?_⟩
  · intro τ ρ use finish t turns hturns
    exact hready.loop use finish t hturns
  · intro more reader hreached
    obtain ⟨hle,hmore⟩ := hreached.keeps hready
    refine ⟨hle,fun h => ?_⟩
    obtain ⟨⟨before,entry,after,hplace⟩,-⟩ := hmore h
    have hsize := hplace.size_eq
    exact ⟨before,entry,after,hplace,by omega,hplace.name⟩
  · intro j encPath w
    refine ⟨_,fun turns hturns => ?_,rfl,fun hall => ?_⟩
    · rw [hready.loop _ _ _ hturns,overNames_encrypt]
      rfl
    · have hsent := @encryptLoop_all j encPath directory.listing.entries 0 w
        (fun i _ => hall (0+i))
      refine ⟨directory.listing.segments.map (j.cbcRequest encPath),hsent,List.length_map _,?_⟩
      intro e he hts
      exact @segments_once j directory.listing encPath [] (fun _ => rfl) e he hts

end MprMq.Service
