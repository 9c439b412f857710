import RedactApi.AuditChain.Payload

/-!
# The chain head commits to the history

`verify_audit_chain` accepts a list of entries exactly when it is a linked
chain, and then the head it returns is the hash of the last entry.  With a hash
that is injective on the texts that were hashed, two accepted lists with one
head agree entry by entry on everything the hash covers.
-/

namespace RedactApi

open HashChain

/-- The stored entries are linked from the genesis hash. -/
abbrev LinkedEntries (env : Env) : List AuditEntry → Prop :=
  Linked AuditEntry.prevHash AuditEntry.entryHash (entryDigest env) genesisPrevHash

theorem verifyEntries_verified {env : Env} {entries : List AuditEntry} :
    (verifyEntries env entries).verified = true ↔ LinkedEntries env entries := by
  rw [LinkedEntries, ← firstBroken_eq_none, verifyEntries]
  simp

theorem verifyEntries_head (env : Env) (entries : List AuditEntry) :
    (verifyEntries env entries).head = head AuditEntry.entryHash genesisPrevHash entries := by
  rw [head_getLast?]
  rfl

/-- The texts hashed when the entries verify. -/
def hashedTexts (entries : List AuditEntry) : List String :=
  entries.map fun e => hashedText e.prevHash e

/-- What is assumed of the hash on the texts that were hashed. -/
structure SoundHash (env : Env) (texts : List String) : Prop where
  injective : ∀ t ∈ texts, ∀ u ∈ texts, env.hashHex t = env.hashHex u → t = u
  ne_genesis : ∀ t ∈ texts, env.hashHex t ≠ genesisPrevHash
  length : ∀ t ∈ texts, (env.hashHex t).length = 64

theorem LinkedEntries.length_prevHash {env : Env} {entries : List AuditEntry}
    (h : LinkedEntries env entries)
    (hlen : ∀ t ∈ hashedTexts entries, (env.hashHex t).length = 64) :
    ∀ e ∈ entries, e.prevHash.length = 64 := by
  have key : ∀ (l : List AuditEntry) (p : String), p.length = 64 →
      Linked AuditEntry.prevHash AuditEntry.entryHash (entryDigest env) p l →
      (∀ t ∈ hashedTexts l, (env.hashHex t).length = 64) → ∀ e ∈ l, e.prevHash.length = 64 := by
    intro l
    induction l with
    | nil =>
      intro p _ _ _ e he
      cases he
    | cons a l ih =>
      rintro p hp ⟨hprev, hown, hl⟩ ht e he
      rcases List.mem_cons.mp he with rfl | he
      · rw [hprev, hp]
      · refine ih a.entryHash ?_ hl (fun t h => ht t (List.mem_cons_of_mem _ h)) e he
        rw [hown, entryDigest_eq, ← hprev]
        exact ht _ List.mem_cons_self
  exact key entries genesisPrevHash (by decide) h hlen

/-- Entry by entry: the hashed fields and both hashes. -/
def SameHistory (l m : List AuditEntry) : Prop :=
  List.Forall₂ (fun e f => SameContent e f ∧ e.prevHash = f.prevHash ∧ e.entryHash = f.entryHash) l m

/-- Two lists of entries that verify with the same head are one history. -/
theorem sameHistory_of_head {env : Env} {l m : List AuditEntry}
    (hash : SoundHash env (hashedTexts l ++ hashedTexts m))
    (h₁ : (verifyEntries env l).verified = true) (h₂ : (verifyEntries env m).verified = true)
    (hh : (verifyEntries env l).head = (verifyEntries env m).head) : SameHistory l m := by
  rw [verifyEntries_verified] at h₁ h₂
  rw [verifyEntries_head, verifyEntries_head] at hh
  have hl₁ := LinkedEntries.length_prevHash h₁ fun t ht => hash.length t (List.mem_append_left _ ht)
  have hl₂ := LinkedEntries.length_prevHash h₂ fun t ht => hash.length t (List.mem_append_right _ ht)
  have hmem : ∀ {l : List AuditEntry} {e : AuditEntry}, e ∈ l →
      hashedText e.prevHash e ∈ hashedTexts l := fun he => List.mem_map_of_mem he
  have hsep : Separates AuditEntry.prevHash (entryDigest env) SameContent l m := by
    intro e he f hf hd
    have ht := hash.injective _ (List.mem_append_left _ (hmem he)) _
      (List.mem_append_right _ (hmem hf)) hd
    obtain ⟨hp, hc⟩ := hashedText_inj (hl₁ e he) (hl₂ f hf) ht
    exact ⟨hc, hp⟩
  have hall := Linked.commits hsep
    (fun e he => hash.ne_genesis _ (List.mem_append_left _ (hmem he)))
    (fun e he => hash.ne_genesis _ (List.mem_append_right _ (hmem he))) h₁ h₂ hh
  refine hall.imp ?_
  rintro e f ⟨hc, hp, ho⟩
  exact ⟨hc, hp, ho⟩

/-- **Tamper evidence.**  Two stored histories of a job that verify with the
same head have the same length and agree position by position on the span, the
action, the category, the reviewer, the time and both hashes. -/
theorem audit_head_commits (env : Env) (jobId : UUID) (db₁ db₂ : Database)
    (hash : SoundHash env (hashedTexts (db₁.entriesBySequence jobId) ++
      hashedTexts (db₂.entriesBySequence jobId)))
    (h₁ : (verifyEntries env (db₁.entriesBySequence jobId)).verified = true)
    (h₂ : (verifyEntries env (db₂.entriesBySequence jobId)).verified = true)
    (hh : (verifyEntries env (db₁.entriesBySequence jobId)).head =
      (verifyEntries env (db₂.entriesBySequence jobId)).head) :
    (db₁.entriesBySequence jobId).length = (db₂.entriesBySequence jobId).length ∧
      SameHistory (db₁.entriesBySequence jobId) (db₂.entriesBySequence jobId) := by
  have hsame := sameHistory_of_head hash h₁ h₂ hh
  exact ⟨hsame.length_eq, hsame⟩

/-! ### Two stored histories of one job

An approved name and the start of apply behind it.  Row ids and `text_hash` are columns the
hash does not cover. -/

section

def approvedEntry (id : UUID) (textHash : Option String) : AuditEntry where
  id := id
  jobId := 0x11111111111111111111111111111111#128
  spanId := some 0x33333333333333333333333333333333#128
  reviewerId := 0x22222222222222222222222222222222#128
  organizationId := 0
  action := .approved
  category := "name"
  textHash := textHash
  entryHash := "7ed8e45e0381eac969702e430170a30e6f9e59f1dcf9f00144acbd7761937963"
  prevHash := genesisPrevHash
  sequence := 1
  createdAt := sampleTime

def startedEntry (id : UUID) : AuditEntry where
  id := id
  jobId := 0x11111111111111111111111111111111#128
  spanId := none
  reviewerId := 0x22222222222222222222222222222222#128
  organizationId := 0
  action := .applyStarted
  category := jobLifecycleCategory
  textHash := none
  entryHash := "d6feef5ac959c9f5dde1cd0b69e3dd0bac1dda1297f8163dcdb30a00c9465421"
  prevHash := "7ed8e45e0381eac969702e430170a30e6f9e59f1dcf9f00144acbd7761937963"
  sequence := 2
  createdAt := sampleTime

def pinnedEntries (id id' : UUID) (textHash : Option String) : List AuditEntry :=
  [approvedEntry id textHash, startedEntry id']

def pinnedDatabase (id id' : UUID) (textHash : Option String) : Database :=
  { Database.empty with auditEntries := pinnedEntries id id' textHash }

def approvedText : String := hashedText genesisPrevHash (approvedEntry 0 none)
def startedText : String := hashedText (approvedEntry 0 none).entryHash (startedEntry 0)

/-- SHA-256 on these texts, and on the empty one. -/
def pinnedHash (text : String) : String :=
  if text = approvedText then (approvedEntry 0 none).entryHash
  else if text = startedText then (startedEntry 0).entryHash
  else "e3b0c44298fc1c149afbf4c8996fb92427ae41e4649b934ca495991b7852b855"

theorem hashedText_approved (id : UUID) (textHash : Option String) :
    hashedText genesisPrevHash (approvedEntry id textHash) = approvedText := rfl

theorem hashedText_started (id id' : UUID) (textHash : Option String) :
    hashedText (approvedEntry id textHash).entryHash (startedEntry id') = startedText := rfl

theorem hashedTexts_pinned (id id' : UUID) (textHash : Option String) :
    hashedTexts (pinnedEntries id id' textHash) = [approvedText, startedText] := rfl

theorem startedText_ne_approvedText : startedText ≠ approvedText := by
  intro h
  have hprev := (hashedText_inj (by decide +kernel) (by decide) h).1
  exact absurd hprev (by decide +kernel)

theorem pinnedHash_approved : pinnedHash approvedText = (approvedEntry 0 none).entryHash := if_pos rfl

theorem pinnedHash_started : pinnedHash startedText = (startedEntry 0).entryHash := by
  rw [pinnedHash, if_neg startedText_ne_approvedText, if_pos rfl]

theorem verified_pinned (id id' : UUID) (textHash : Option String) :
    (verifyEntries (Env.letter pinnedHash) (pinnedEntries id id' textHash)).verified = true := by
  refine verifyEntries_verified.mpr ⟨rfl, ?_, rfl, ?_, trivial⟩
  · rw [entryDigest_eq, Env.letter_hashHex, hashedText_approved, pinnedHash_approved]
    rfl
  · rw [entryDigest_eq, Env.letter_hashHex, hashedText_started, pinnedHash_started]
    rfl

theorem soundHash_pinned (i i' j j' : UUID) (textHash textHash' : Option String) :
    SoundHash (Env.letter pinnedHash)
      (hashedTexts (pinnedEntries i i' textHash) ++ hashedTexts (pinnedEntries j j' textHash')) := by
  have hmem : ∀ t ∈ hashedTexts (pinnedEntries i i' textHash) ++
      hashedTexts (pinnedEntries j j' textHash'), t = approvedText ∨ t = startedText := by
    intro t ht
    rw [hashedTexts_pinned, hashedTexts_pinned, List.mem_append, or_self] at ht
    simpa using ht
  have happroved := Env.letter_hashHex pinnedHash ▸ pinnedHash_approved
  have hstarted := Env.letter_hashHex pinnedHash ▸ pinnedHash_started
  refine ⟨fun t ht u hu h => ?_, fun t ht => ?_, fun t ht => ?_⟩
  · have hne : (approvedEntry 0 none).entryHash ≠ (startedEntry 0).entryHash := by decide
    obtain rfl | rfl := hmem t ht <;> obtain rfl | rfl := hmem u hu
    · rfl
    · exact absurd (happroved.symm.trans (h.trans hstarted)) hne
    · exact absurd (happroved.symm.trans (h.symm.trans hstarted)) hne
    · rfl
  · obtain rfl | rfl := hmem t ht
    · rw [Env.letter_hashHex, pinnedHash_approved]
      decide +kernel
    · rw [Env.letter_hashHex, pinnedHash_started]
      decide +kernel
  · obtain rfl | rfl := hmem t ht
    · rw [Env.letter_hashHex, pinnedHash_approved]
      decide +kernel
    · rw [Env.letter_hashHex, pinnedHash_started]
      decide +kernel

theorem entriesBySequence_pinned (id id' : UUID) (textHash : Option String) :
    (pinnedDatabase id id' textHash).entriesBySequence 0x11111111111111111111111111111111#128 =
      pinnedEntries id id' textHash := rfl

end

/-- Two entries whose ids and digest differ. -/
theorem audit_head_commits_pinned :
    SameHistory (pinnedEntries 1 2 none) (pinnedEntries 3 4 (some "00")) := by
  have h := audit_head_commits (Env.letter pinnedHash) 0x11111111111111111111111111111111#128
    (pinnedDatabase 1 2 none) (pinnedDatabase 3 4 (some "00"))
  rw [entriesBySequence_pinned, entriesBySequence_pinned] at h
  exact (h (soundHash_pinned 1 2 3 4 none (some "00")) (verified_pinned 1 2 none)
    (verified_pinned 3 4 (some "00")) rfl).2

end RedactApi
