import MprMq.Lib.LeftmostPieces
import MprMq.Service.AllOrNothing
set_option autoImplicit false

/-! `ReplaceAll` puts the replacement where its pattern was, and nowhere else. -/

namespace MprMq.Service
open MprMq.Base
open MprMq.Lib

def keyLine (cipher : Text) : Text := "#EXT-X-KEY:".toList ++ cipher ++ "\n".toList

section find
variable {search : Text}

theorem findOffset_eq_none {source : Text} (h : ∀ i, ¬ search <+: source.drop i) :
    findOffset search source = none := by
  cases hf : findOffset search source with
  | none => rfl
  | some i => exact absurd (findOffset_spec hf) (h i)

theorem findOffset_first {p rest : Text}
    (h : ∀ i < p.length, ¬ search <+: (p ++ search ++ rest).drop i) :
    findOffset search (p ++ search ++ rest) = some p.length := by
  induction p with
  | nil =>
    rw [List.nil_append,List.length_nil]
    cases hs : search ++ rest with
    | nil => simp [findOffset,(List.append_eq_nil_iff.mp hs).1]
    | cons c cs =>
      have hpre : search <+: c :: cs := hs ▸ List.prefix_append _ _
      rw [findOffset,if_pos (List.isPrefixOf_iff_prefix.mpr hpre)]
  | cons c p ih =>
    have hhead := h 0 (Nat.zero_lt_succ _)
    have htail := ih fun i hi => h (i+1) (Nat.succ_lt_succ hi)
    rw [List.drop_zero,List.cons_append,List.cons_append,← List.isPrefixOf_iff_prefix] at hhead
    rw [List.cons_append,List.cons_append,findOffset,if_neg hhead,htail]
    rfl

theorem find_after (done rest : Text) :
    find (done ++ rest) search done.length =
      (findOffset search rest).map (fun i => done.length+i) := by
  rw [find,if_neg (by rw [List.length_append]; omega),List.drop_left]

end find

/-- The search goes on behind what was put in, so that is never looked at. -/
theorem replaceAllLoop_pieces {search rest : Text} {pieces : List Text} (replace : Text)
    (hne : search ≠ []) (h : LeftmostPieces search rest pieces) {fuel : Nat} {done : Text}
    (hfuel : rest.length < fuel) :
    replaceAllLoop search replace fuel (done ++ rest) done.length =
      some (done ++ replace.intercalate pieces) := by
  induction h generalizing fuel done with
  | rest hnone =>
    obtain ⟨fuel,rfl⟩ := Nat.exists_eq_add_of_lt hfuel
    rw [replaceAllLoop,find_after,findOffset_eq_none hnone,List.intercalate_singleton]
    rfl
  | @cut p s pieces hfirst htail ih =>
    obtain ⟨fuel,rfl⟩ : ∃ n, fuel = n+1 := ⟨fuel-1,by omega⟩
    have hsearch : 0 < search.length := List.length_pos_iff.mpr hne
    have hfound : find (done ++ (p ++ search ++ s)) search done.length =
        some (done.length+p.length) := by
      rw [find_after,findOffset_first hfirst]
      rfl
    have htake : (done ++ (p ++ search ++ s)).take (done.length+p.length) = done ++ p := by
      rw [List.take_length_add_append,List.append_assoc,List.take_left]
    have hdrop : (done ++ (p ++ search ++ s)).drop (done.length+p.length+search.length) = s := by
      rw [Nat.add_assoc,List.drop_length_add_append,← List.length_append,List.drop_left]
    have hlen : (done ++ p ++ replace).length = done.length+p.length+replace.length := by
      simp only [List.length_append]
    simp only [List.length_append] at hfuel
    rw [replaceAllLoop,hfound]
    simp only [htake,hdrop]
    rw [← hlen,ih (by omega),htail.intercalate_cons]
    simp only [List.append_assoc]

theorem replaceAll_pieces {search source : Text} {pieces : List Text} (replace : Text)
    (hne : search ≠ []) (h : LeftmostPieces search source pieces) :
    replaceAll source search replace = some (replace.intercalate pieces) := by
  have hloop := @replaceAllLoop_pieces search source pieces replace hne h _ []
    (Nat.lt_succ_self _)
  rwa [List.nil_append,List.nil_append,List.length_nil] at hloop

section rewriteM3u8

theorem header_keyLine (cipher : Text) :
    "#EXTM3U\n".toList ++ keyLine cipher =
      "#EXTM3U\n".toList ++ "#EXT-X-KEY:".toList ++ cipher ++ "\n".toList := by
  have hassoc (a b c d : Text) : a ++ (b ++ c ++ d) = a ++ b ++ c ++ d := by
    simp only [List.append_assoc]
  exact hassoc _ _ _ _

theorem header_unbordered : Unbordered "#EXTM3U\n".toList := by
  have hcons : "#EXTM3U\n".toList = '#' :: "EXTM3U\n".toList := by decide
  rw [hcons]
  exact unbordered_of_notMem (by decide)

theorem header_apart : ∀ c ∈ "#EXTM3U\n".toList, c ∉ "/orig/".toList := by
  have hall : ("#EXTM3U\n".toList.all fun c => c ∉ "/orig/".toList) = true := by decide
  exact fun c hc => of_decide_eq_true (List.all_eq_true.mp hall c hc)

theorem rewriteM3u8_pieces {content : Text} {pieces lines : List Text} (cipher : Text)
    (h : LeftmostPieces "/orig/".toList content pieces)
    (hlines : LeftmostPieces "#EXTM3U\n".toList ("/enc/".toList.intercalate pieces) lines) :
    rewriteM3u8 content cipher =
      some (("#EXTM3U\n".toList ++ keyLine cipher).intercalate lines) := by
  have horig := replaceAll_pieces "/enc/".toList (by decide) h
  have hheader := replaceAll_pieces ("#EXTM3U\n".toList ++ keyLine cipher) (by decide) hlines
  rw [header_keyLine] at hheader ⊢
  rw [rewriteM3u8,horig,Option.bind_some,hheader]

/-- The first replacement leaves a header as it is, and the second finds every one. -/
theorem rewriteM3u8_header (before after cipher : Text) :
    ∃ b a, rewriteM3u8 before cipher = some b ∧ rewriteM3u8 after cipher = some a ∧
      rewriteM3u8 (before ++ "#EXTM3U\n".toList ++ after) cipher =
        some (b ++ "#EXTM3U\n".toList ++ keyLine cipher ++ a) := by
  obtain ⟨ps,hps⟩ := LeftmostPieces.exists_pieces
    (by decide : "/orig/".toList ≠ []) before
  obtain ⟨qs,hqs⟩ := LeftmostPieces.exists_pieces
    (by decide : "/orig/".toList ≠ []) after
  obtain ⟨us,hus⟩ := LeftmostPieces.exists_pieces
    (by decide : "#EXTM3U\n".toList ≠ []) ("/enc/".toList.intercalate ps)
  obtain ⟨vs,hvs⟩ := LeftmostPieces.exists_pieces
    (by decide : "#EXTM3U\n".toList ≠ []) ("/enc/".toList.intercalate qs)
  obtain ⟨rs,hrs,hjoin⟩ := hps.append_apart header_apart (by decide) (by decide) hqs
  have hlines := hus.append_pat header_unbordered hvs
  rw [← hjoin] at hlines
  refine ⟨_,_,rewriteM3u8_pieces cipher hps hus,rewriteM3u8_pieces cipher hqs hvs,?_⟩
  rw [rewriteM3u8_pieces cipher hrs hlines,hus.intercalate_append hvs]
  simp only [List.append_assoc]

end rewriteM3u8

/-- The pieces between the leftmost occurrences come out joined by the replacement, and no header
of a content is without its key line. -/
theorem pieces_joined {source search : Text} (replace content cipher before after : Text)
    (hne : search ≠ []) :
    (∃ pieces, LeftmostPieces search source pieces ∧
      (∀ others, LeftmostPieces search source others → others = pieces) ∧
      search.intercalate pieces = source ∧
      replaceAll source search replace = some (replace.intercalate pieces)) ∧
    (∃ pieces lines, LeftmostPieces "/orig/".toList content pieces ∧
      LeftmostPieces "#EXTM3U\n".toList ("/enc/".toList.intercalate pieces) lines ∧
      rewriteM3u8 content cipher =
        some (("#EXTM3U\n".toList ++ keyLine cipher).intercalate lines)) ∧
    ∃ b a, rewriteM3u8 before cipher = some b ∧ rewriteM3u8 after cipher = some a ∧
      rewriteM3u8 (before ++ "#EXTM3U\n".toList ++ after) cipher =
        some (b ++ "#EXTM3U\n".toList ++ keyLine cipher ++ a) := by
  refine ⟨?_,?_,rewriteM3u8_header before after cipher⟩
  · obtain ⟨pieces,h⟩ := LeftmostPieces.exists_pieces hne source
    exact ⟨pieces,h,fun _ h' => h'.unique h,h.intercalate_pat,replaceAll_pieces replace hne h⟩
  · obtain ⟨pieces,h⟩ := LeftmostPieces.exists_pieces
      (by decide : "/orig/".toList ≠ []) content
    obtain ⟨lines,hlines⟩ := LeftmostPieces.exists_pieces
      (by decide : "#EXTM3U\n".toList ≠ []) ("/enc/".toList.intercalate pieces)
    exact ⟨pieces,lines,h,hlines,rewriteM3u8_pieces cipher h hlines⟩

theorem pattern_in_replacement :
    ∃ pieces, LeftmostPieces "aa".toList "aaaXaa".toList pieces ∧
      (∀ others, LeftmostPieces "aa".toList "aaaXaa".toList others → others = pieces) ∧
      "aa".toList.intercalate pieces = "aaaXaa".toList ∧
      replaceAll "aaaXaa".toList "aa".toList "aaa".toList =
        some ("aaa".toList.intercalate pieces) :=
  (pieces_joined "aaa".toList [] [] [] [] (by decide)).1

example : replaceAll "aaaXaa".toList "aa".toList "aaa".toList = some "aaaaXaaa".toList := by
  decide

end MprMq.Service
