import RedactApi.Detection.Order
import RedactApi.Detection.Tier1
import RedactApi.Services.Detection

/-!
# The entities of Tier 2

The front of `detection/tier2.py`: what the recogniser reports is filtered by the floor
and by the entity types that have a category.  The recogniser itself, Presidio over
spaCy, is `analyzeIterator`: from the texts of the pages to the results for each.

With the detectors that the service registers, every span that is found has the text and
the boxes of its page.
-/

namespace RedactApi

/-! ### From results to candidates -/

structure RecognizerResult where
  entityType : String
  start : Nat
  stop : Nat
  score : ℚ
  deriving DecidableEq, Repr

/-- The entity types that are requested, with their categories. -/
def presidioEntityToCategory : List (String × String) :=
  [("PERSON", "name"), ("ORGANIZATION", "organization"), ("LOCATION", "location"),
    ("PHONE_NUMBER", "phone"), ("EMAIL_ADDRESS", "email"), ("US_SSN", "ssn")]

/-- The floor, which is inclusive. -/
def tier2MinConfidence : ℚ := 2 / 5

/-- One result as a candidate; nothing if its type has no category. -/
def toCandidate (page : PageModel) (result : RecognizerResult) : Option CandidateSpan :=
  (presidioEntityToCategory.lookup result.entityType).map fun category =>
    { pageNumber := page.pageNumber
      start := result.start
      stop := result.stop
      bboxes := resolveSpanBboxes page result.start result.stop
      text := page.slice result.start result.stop
      category := category
      sourceTier := .tier2
      confidence := result.score }

/-- The floor and the mapping, on the results of one page. -/
def pageSpans (page : PageModel) (results : List RecognizerResult) : List CandidateSpan :=
  results.filterMap fun result =>
    if result.score < tier2MinConfidence then none else toCandidate page result

/-- All pages in one call of the recogniser. -/
def detectEntitiesBatch
    (analyzeIterator : List String → Except Exn (List (List RecognizerResult)))
    (pages : List PageModel) : Except Exn (List (List CandidateSpan)) :=
  if pages.isEmpty then .ok []
  else do
    let resultsPerPage ← analyzeIterator (pages.map (·.text))
    let items ← zipStrict pages resultsPerPage
    .ok (items.map fun item => pageSpans item.1 item.2)

/-- The libraries detect with what the service registers. -/
structure DetectorsRegistered (env : Env) (isValidEmail : String → Bool)
    (analyzeIterator : List String → Except Exn (List (List RecognizerResult))) : Prop where
  tier1 : env.tier1Detectors = tier1Detectors env.casefold isValidEmail
  tier2 : env.detectEntitiesBatch = detectEntitiesBatch analyzeIterator

/-! ### What is found belongs to its page -/

section

variable {page : PageModel} {results : List RecognizerResult} {s : CandidateSpan}

theorem mem_pageSpans : s ∈ pageSpans page results ↔
    ∃ result ∈ results, tier2MinConfidence ≤ result.score ∧ toCandidate page result = some s := by
  simp only [pageSpans, List.mem_filterMap]
  constructor
  · rintro ⟨result, hresult, h⟩
    split at h
    · cases h
    · rename_i hscore
      exact ⟨result, hresult, not_lt.mp hscore, h⟩
  · rintro ⟨result, hresult, hscore, h⟩
    exact ⟨result, hresult, by rw [if_neg (not_lt.mpr hscore)]; exact h⟩

theorem fromPage_pageSpans (h : s ∈ pageSpans page results) : FromPage page s := by
  obtain ⟨result, -, -, hs⟩ := mem_pageSpans.mp h
  obtain ⟨category, -, rfl⟩ := Option.map_eq_some_iff.mp hs
  exact ⟨rfl, rfl⟩

theorem fromPage_tier1 {casefold : String → String} {isValidEmail : String → Bool}
    (h : s ∈ (tier1Detectors casefold isValidEmail).flatMap fun detector => detector page) :
    FromPage page s := by
  obtain ⟨detector, hdetector, hs⟩ := List.mem_flatMap.mp h
  have hmatches : ∃ d : MatchDetector, s ∈ detectMatches page d := by
    simp only [tier1Detectors, List.mem_cons, List.not_mem_nil, or_false] at hdetector
    rcases hdetector with rfl | rfl | rfl | rfl | rfl | rfl <;> exact ⟨_, hs⟩
  obtain ⟨d, hs⟩ := hmatches
  obtain ⟨hit, -, rfl⟩ := List.mem_map.mp hs
  exact ⟨rfl, rfl⟩

end

section

variable {env : Env} {isValidEmail : String → Bool}
  {analyzeIterator : List String → Except Exn (List (List RecognizerResult))}
  {pages : List PageModel} {tier2ByPage : List (List CandidateSpan)}
  {items : List (PageModel × List CandidateSpan)}

theorem zipStrict_ok {α β : Type} {as : List α} {bs : List β} {abs : List (α × β)}
    (h : zipStrict as bs = .ok abs) : as.length = bs.length ∧ abs = as.zip bs := by
  rw [zipStrict] at h
  split at h
  · rename_i hlength
    cases h
    exact ⟨hlength, rfl⟩
  · cases h

/-- The spans of a page come from the results for its text. -/
theorem zip_detectEntitiesBatch (h : detectEntitiesBatch analyzeIterator pages = .ok tier2ByPage) :
    ∀ item ∈ pages.zip tier2ByPage, ∃ results, item.2 = pageSpans item.1 results := by
  rw [detectEntitiesBatch] at h
  split at h
  · rename_i hempty
    rw [List.isEmpty_iff.mp hempty]
    exact fun _ h => absurd h List.not_mem_nil
  obtain ⟨resultsPerPage, -, h⟩ := bind_ok h
  obtain ⟨items, hitems, h⟩ := bind_ok h
  cases h
  obtain ⟨hlength, rfl⟩ := zipStrict_ok hitems
  intro item hitem
  obtain ⟨k, hk⟩ := List.mem_iff_getElem?.mp hitem
  obtain ⟨hpage, hspans⟩ := List.getElem?_zip_eq_some.mp hk
  rw [List.getElem?_map] at hspans
  obtain ⟨pair, hpair, hspans⟩ := Option.map_eq_some_iff.mp hspans
  have hsame := (List.getElem?_zip_eq_some.mp hpair).1
  rw [hpage] at hsame
  exact ⟨pair.2, by rw [← hspans, Option.some.inj hsame]⟩

/-- **What the registered detectors find** has the text and the boxes of its page. -/
theorem DetectorsRegistered.fromPage (h : DetectorsRegistered env isValidEmail analyzeIterator)
    (htier2 : env.detectEntitiesBatch pages = .ok tier2ByPage)
    (hitems : zipStrict pages tier2ByPage = .ok items) :
    ∀ item ∈ items, ∀ s ∈ (env.tier1Detectors.flatMap fun detector => detector item.1) ++ item.2,
      FromPage item.1 s := by
  intro item hitem s hs
  obtain ⟨-, rfl⟩ := zipStrict_ok hitems
  rw [h.tier2] at htier2
  obtain ⟨results, hresults⟩ := zip_detectEntitiesBatch htier2 item hitem
  rcases List.mem_append.mp hs with hs | hs
  · rw [h.tier1] at hs
    exact fromPage_tier1 hs
  · rw [hresults] at hs
    exact fromPage_pageSpans hs

end

end RedactApi
