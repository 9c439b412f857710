import RedactApi.Redaction.VerifyGate
import RedactApi.Normalization

/-!
# How far `normalize_text` is a normal form

Composing and folding work word by word, and the two passes after them leave the words
joined by single blanks.  So the question is what folding makes of a composed word.  It can
leave a letter beside a mark that composes with it, and nothing composes them: then the
result is no fixed point, and a text that is only cased differently may be normalised to
something else.  Where the folded letters, each composed on its own, stay composed side by
side, neither happens.
-/

namespace RedactApi

open Normalization

/-! ### Words of a text -/

/-- `text.split()`. -/
def wordsOf (text : String) : List (List Char) := Words.words isSpace text.toList

theorem collapseSpaces_eq (inRun : Bool) (text : List Char) :
    collapseSpaces inRun text = Words.collapse isSpace ' ' inRun text := by
  induction text generalizing inRun with
  | nil => rfl
  | cons c text ih => simp only [collapseSpaces, Words.collapse, ih]

/-- NFC and full case folding are those of the tables, where whitespace stays apart. -/
structure FollowsTables (env : Env) (T : CharacterData Char) : Prop where
  nfc : ∀ text, env.nfc text = String.ofList (T.nfc text.toList)
  casefold : ∀ text, env.casefold text = String.ofList (T.fold text.toList)
  separates : T.Separates isSpace

section Normalising

variable {env : Env} {T : CharacterData Char} (h : FollowsTables env T)
include h

/-- What the two table passes make of the words. -/
theorem words_casefold_nfc (text : String) :
    Words.words isSpace (env.casefold (env.nfc text)).toList =
      (wordsOf text).map fun v => T.fold (T.nfc v) := by
  rw [h.casefold, h.nfc, String.toList_ofList, String.toList_ofList, h.separates.words_fold,
    h.separates.words_nfc, List.map_map]
  rfl

theorem normalizeText_eq (text : String) : normalizeText env text =
    String.ofList (Words.unwords ' ' ((wordsOf text).map fun v => T.fold (T.nfc v))) := by
  rw [← words_casefold_nfc h, ← Words.strip_collapse_eq (by decide), ← collapseSpaces_eq]
  rfl

theorem wordsOf_normalizeText (text : String) :
    wordsOf (normalizeText env text) = (wordsOf text).map fun v => T.fold (T.nfc v) := by
  rw [normalizeText_eq h, wordsOf, String.toList_ofList]
  refine Words.words_unwords (by decide) fun v hv => ?_
  rw [← words_casefold_nfc h] at hv
  exact Words.isWord_of_mem_words hv

/-- **Two texts have one normal form when their words have.** -/
theorem normalizeText_eq_iff {s t : String} : normalizeText env s = normalizeText env t ↔
    ((wordsOf s).map fun v => T.fold (T.nfc v)) = (wordsOf t).map fun v => T.fold (T.nfc v) := by
  constructor
  · intro heq
    rw [← wordsOf_normalizeText h, heq, wordsOf_normalizeText h]
  · intro heq
    rw [normalizeText_eq h, heq, ← normalizeText_eq h]

theorem normalizeText_idempotent_iff {s : String} :
    normalizeText env (normalizeText env s) = normalizeText env s ↔
      ∀ v ∈ wordsOf s, T.fold (T.nfc (T.fold (T.nfc v))) = T.fold (T.nfc v) := by
  rw [normalizeText_eq_iff h, wordsOf_normalizeText h, List.map_map, List.map_inj_left]
  rfl

end Normalising

/-! ### Caseless matching -/

/-- Canonical caseless match: equal after NFD, full case folding, NFD. -/
def CanonicalCaselessMatch (T : CharacterData Char) (s t : String) : Prop :=
  T.nfd (T.fold (T.nfd s.toList)) = T.nfd (T.fold (T.nfd t.toList))

/-- Canonical caseless matches match word by word. -/
theorem CanonicalCaselessMatch.words {T : CharacterData Char} (hsep : T.Separates isSpace)
    {s t : String} (h : CanonicalCaselessMatch T s t) :
    ((wordsOf s).map fun v => T.nfd (T.fold (T.nfd v))) =
      (wordsOf t).map fun v => T.nfd (T.fold (T.nfd v)) := by
  have hwords : ∀ text : String, Words.words isSpace (T.nfd (T.fold (T.nfd text.toList))) =
      (wordsOf text).map fun v => T.nfd (T.fold (T.nfd v)) := by
    intro text
    rw [hsep.words_nfd, hsep.words_fold, hsep.words_nfd, List.map_map, List.map_map]
    rfl
  rw [← hwords, h, hwords]

theorem map_eq_map_of_imp {α β γ : Type} {f : α → β} {g : α → γ} {l m : List α}
    (hfg : ∀ a ∈ l, ∀ b ∈ m, f a = f b → g a = g b) (h : l.map f = m.map f) :
    l.map g = m.map g := by
  induction l generalizing m with
  | nil => rw [List.map_eq_nil_iff.mp h.symm]
  | cons a l ih =>
    cases m with
    | nil => exact absurd h (by simp)
    | cons b m =>
      rw [List.map_cons, List.map_cons, List.cons.injEq] at h
      rw [List.map_cons, List.map_cons, hfg a List.mem_cons_self b List.mem_cons_self h.1,
        ih (fun a ha b hb => hfg a (List.mem_cons_of_mem _ ha) b (List.mem_cons_of_mem _ hb)) h.2]

/-- **Where the normal form is one.**  If in every word the composed foldings stay composed,
normalising again changes nothing, and the condition is exact where no character that folds
to others is involved.  Canonical caseless matches of which this holds, and in which no mark
that folds has to be sorted, have one normal form. -/
theorem normalizeText_normal_of_composed (env : Env) (T : CharacterData Char)
    (htables : FollowsTables env T) :
    (∀ s, (∀ v ∈ wordsOf s, T.StaysComposed v) →
      normalizeText env (normalizeText env s) = normalizeText env s) ∧
    (∀ s, (∀ v ∈ wordsOf s, T.NoneSplits v) →
      (normalizeText env (normalizeText env s) = normalizeText env s ↔
        ∀ v ∈ wordsOf s, T.StaysComposed v)) ∧
    ∀ s t, CanonicalCaselessMatch T s t → (∀ v ∈ wordsOf s, T.StaysComposed v ∧ T.MarksStay v) →
      (∀ v ∈ wordsOf t, T.StaysComposed v ∧ T.MarksStay v) →
      normalizeText env s = normalizeText env t := by
  refine ⟨fun s hs => ?_, fun s hs => ?_, fun s t hmatch hs ht => ?_⟩
  · exact (normalizeText_idempotent_iff htables).mpr fun v hv =>
      CharacterData.fold_nfc_fold_nfc (hs v hv)
  · rw [normalizeText_idempotent_iff htables]
    exact forall₂_congr fun v hv => (CharacterData.staysComposed_iff (hs v hv)).symm
  · refine (normalizeText_eq_iff htables).mpr (map_eq_map_of_imp (fun v hv u hu => ?_)
      (hmatch.words htables.separates))
    exact CharacterData.fold_nfc_eq_of_match (hs v hv).1 (hs v hv).2 (ht u hu).1 (ht u hu).2

/-! ### A few entries of the tables -/

def codePoints (points : List Nat) : List Char := points.map Char.ofNat

/-- Iota and e, with diaeresis and acute. -/
def someComposites : List ((Char × Char) × Char) :=
  [(0x399, 0x308, 0x3AA), (0x399, 0x301, 0x38A), (0x3B9, 0x308, 0x3CA), (0x3B9, 0x301, 0x3AF),
    (0x3CA, 0x301, 0x390), (0x45, 0x308, 0xCB), (0x45, 0x301, 0xC9), (0x65, 0x308, 0xEB),
    (0x65, 0x301, 0xE9)].map fun e => ((Char.ofNat e.1, Char.ofNat e.2.1), Char.ofNat e.2.2)

def someDecompositions : List (Char × List Char) :=
  [(0x3AA, [0x399, 0x308]), (0x38A, [0x399, 0x301]), (0x3CA, [0x3B9, 0x308]),
    (0x3AF, [0x3B9, 0x301]), (0x390, [0x3B9, 0x308, 0x301]), (0xCB, [0x45, 0x308]),
    (0xC9, [0x45, 0x301]), (0xEB, [0x65, 0x308]), (0xE9, [0x65, 0x301])].map
      fun e => (Char.ofNat e.1, codePoints e.2)

def someFoldings : List (Char × List Char) :=
  [(0x399, [0x3B9]), (0x3AA, [0x3CA]), (0x38A, [0x3AF]), (0x390, [0x3B9, 0x308, 0x301]),
    (0x45, [0x65]), (0xCB, [0xEB]), (0xC9, [0xE9])].map fun e => (Char.ofNat e.1, codePoints e.2)

def someTables : Tables Char where
  combiningClass c := if c ∈ codePoints [0x301, 0x308] then 230 else 0
  decomposition c := (someDecompositions.lookup c).getD [c]
  composite a b := someComposites.lookup (a, b)
  folding c := (someFoldings.lookup c).getD [c]

def listed : List Char :=
  codePoints [0x301, 0x308] ++ someDecompositions.map Prod.fst ++ someFoldings.map Prod.fst

theorem getD_lookup {table : List (Char × List Char)} {c : Char} (h : c ∉ table.map Prod.fst) :
    (table.lookup c).getD [c] = [c] := by
  have hnone : table.lookup c = none := List.lookup_eq_none_iff.mpr fun e he => by
    have hne : c ≠ e.1 := fun heq => h (heq ▸ List.mem_map_of_mem he)
    simpa using hne
  rw [hnone, Option.getD_none]

theorem decomposition_of_not_listed {c : Char} (h : c ∉ listed) : someTables.decomposition c = [c] :=
  getD_lookup fun hm => h (by simp [listed, hm])

theorem folding_of_not_listed {c : Char} (h : c ∉ listed) : someTables.folding c = [c] :=
  getD_lookup fun hm => h (by simp [listed, hm])

theorem mem_someComposites {a b c : Char} (h : someTables.composite a b = some c) :
    ((a, b), c) ∈ someComposites := by
  obtain ⟨l, r, heq, -⟩ := List.lookup_eq_some_iff.mp h
  simp [heq]

def someCharacterData : CharacterData Char where
  toTables := someTables
  decomposition_decomposition := by
    have hlisted : listed.Forall fun c => (someTables.decomposition c).Forall fun b =>
        someTables.decomposition b = [b] := by decide +kernel
    intro a b hb
    by_cases ha : a ∈ listed
    · exact List.forall_iff_forall_mem.mp (List.forall_iff_forall_mem.mp hlisted a ha) b hb
    · have hself := decomposition_of_not_listed ha
      rw [hself, List.mem_singleton] at hb
      rw [hb, hself]
  decomposition_composite := by
    have hlisted : someComposites.Forall fun e => someTables.decomposition e.2 =
        someTables.decomposition e.1.1 ++ someTables.decomposition e.1.2 := by decide +kernel
    intro a b c h
    exact List.forall_iff_forall_mem.mp hlisted _ (mem_someComposites h)
  folding_decomposition := by
    have hlisted : listed.Forall fun c => someTables.nfd (someTables.folding c) =
        someTables.nfd (someTables.fold (someTables.decomposition c)) := by decide +kernel
    intro a
    by_cases ha : a ∈ listed
    · exact List.forall_iff_forall_mem.mp hlisted a ha
    · rw [folding_of_not_listed ha, decomposition_of_not_listed ha, Tables.fold,
        List.flatMap_singleton, folding_of_not_listed ha]
  folding_recomposed := by
    have hlisted : listed.Forall fun c =>
        someTables.fold (someTables.nfc (someTables.folding c)) = someTables.folding c := by
      decide +kernel
    intro a _
    by_cases ha : a ∈ listed
    · exact List.forall_iff_forall_mem.mp hlisted a ha
    · have hnfd : someTables.nfd [a] = [a] := by
        rw [Tables.nfd, List.flatMap_singleton, decomposition_of_not_listed ha]
        rfl
      have hnfc : someTables.nfc [a] = [a] := by
        rw [Tables.nfc, hnfd, Tables.compose, Tables.composeFrom, Tables.compose, ite_self]
      rw [folding_of_not_listed ha, hnfc, Tables.fold, List.flatMap_singleton,
        folding_of_not_listed ha]

theorem someCharacterData_separates : someCharacterData.Separates isSpace := by
  have hspace : listed.Forall fun c => isSpace c = false := by decide +kernel
  have hcomposites : someComposites.Forall fun e =>
      isSpace e.1.1 = false ∧ isSpace e.1.2 = false ∧ isSpace e.2 = false := by decide +kernel
  have hwords : listed.Forall fun c => Words.IsWord isSpace (someTables.decomposition c) ∧
      Words.IsWord isSpace (someTables.folding c) := by decide +kernel
  rw [List.forall_iff_forall_mem] at hspace hcomposites hwords
  have hnot : ∀ {a}, isSpace a = true → a ∉ listed := fun ha hm => by simp [hspace _ hm] at ha
  have hself : ∀ {a}, isSpace a = false → Words.IsWord isSpace [a] := fun ha =>
    ⟨by simp, by simpa using ha⟩
  refine
    { starter := fun ha => if_neg fun hm => hnot ha (by simp [listed, hm])
      decomposition := fun ha => ⟨_, ha, decomposition_of_not_listed (hnot ha)⟩
      decomposition_word := fun {a} ha => ?_
      folding := fun ha => ⟨_, ha, folding_of_not_listed (hnot ha)⟩
      folding_word := fun {a} ha => ?_
      composite_left := fun {a b} ha => ?_
      composite_right := fun {a b} hb => ?_
      composite_word := fun a b c h => (hcomposites _ (mem_someComposites h)).2.2 }
  · by_cases hm : a ∈ listed
    · exact (hwords a hm).1
    · exact (decomposition_of_not_listed hm).symm ▸ hself ha
  · by_cases hm : a ∈ listed
    · exact (hwords a hm).2
    · exact (folding_of_not_listed hm).symm ▸ hself ha
  · refine Option.eq_none_iff_forall_not_mem.mpr fun c hc => ?_
    simp [(hcomposites _ (mem_someComposites hc)).1] at ha
  · refine Option.eq_none_iff_forall_not_mem.mpr fun c hc => ?_
    simp [(hcomposites _ (mem_someComposites hc)).2.1] at hb

/-- Unicode, as far as these letters go. -/
def iotaEnv : Env :=
  { Env.letter id with
    nfc := fun text => String.ofList (someTables.nfc text.toList)
    casefold := fun text => String.ofList (someTables.fold text.toList) }

theorem iotaEnv_followsTables : FollowsTables iotaEnv someCharacterData :=
  ⟨fun _ => rfl, fun _ => rfl, someCharacterData_separates⟩

/-- Capital E beside an acute, capital iota beside a diaeresis; the small letters, composed. -/
def capitalWords : String := String.ofList (codePoints [0x45, 0x301, 0x20, 0x399, 0x308])
def smallWords : String := String.ofList (codePoints [0xE9, 0x20, 0x3CA])

theorem normalizeText_normal_of_composed_words :
    normalizeText iotaEnv (normalizeText iotaEnv capitalWords) = normalizeText iotaEnv capitalWords ∧
      (∀ v ∈ wordsOf capitalWords, someCharacterData.StaysComposed v) ∧
      normalizeText iotaEnv capitalWords = normalizeText iotaEnv smallWords := by
  have hnormal := normalizeText_normal_of_composed iotaEnv someCharacterData iotaEnv_followsTables
  have hcapital : ∀ v ∈ wordsOf capitalWords,
      someCharacterData.StaysComposed v ∧ someCharacterData.MarksStay v := by decide +kernel
  have hsmall : ∀ v ∈ wordsOf smallWords,
      someCharacterData.StaysComposed v ∧ someCharacterData.MarksStay v := by decide +kernel
  have hsplits : ∀ v ∈ wordsOf capitalWords, someCharacterData.NoneSplits v := by decide +kernel
  have hmatch : CanonicalCaselessMatch someCharacterData capitalWords smallWords := by
    unfold CanonicalCaselessMatch
    decide +kernel
  have hfixed := hnormal.1 capitalWords fun v hv => (hcapital v hv).1
  exact ⟨hfixed, (hnormal.2.1 capitalWords hsplits).mp hfixed, hnormal.2.2 _ _ hmatch hcapital hsmall⟩

/-- Iota with diaeresis and acute: the capital composed with the first mark, and the small
letter composed with both. -/
def capitalIota : String := String.ofList (codePoints [0x3AA, 0x301])
def composedIota : String := String.ofList (codePoints [0x390])

/-- **Folding takes a text out of its normal form.**  Capital iota with both marks folds to
the small letter with the acute uncomposed; composing that once more folds to three
characters, as the small letter with both marks does at once. -/
theorem caseless_matches_differ :
    FollowsTables iotaEnv someCharacterData ∧
      normalizeText iotaEnv (normalizeText iotaEnv capitalIota) ≠ normalizeText iotaEnv capitalIota ∧
      CanonicalCaselessMatch someCharacterData capitalIota composedIota ∧
      normalizeText iotaEnv capitalIota ≠ normalizeText iotaEnv composedIota := by
  refine ⟨iotaEnv_followsTables, by decide +kernel, ?_, by decide +kernel⟩
  unfold CanonicalCaselessMatch
  decide +kernel

end RedactApi
