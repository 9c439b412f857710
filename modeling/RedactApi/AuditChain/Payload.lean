import RedactApi.Services.RedactionJob

/-!
# What the hashed text of an entry determines

The text hashed for an audit entry is the previous hash followed by canonical
JSON.  The previous hash has a fixed length, the keys of the JSON are fixed and
sorted, and the values are quoted strings or `null`; so the text determines the
previous hash and every hashed field.
-/

namespace RedactApi

open Json

def member (key : String) (value : List Char) : List Char := quote key ++ ':' :: value

theorem sort_payload (a b c d e f : List Char) :
    ([("job_id", a), ("span_id", b), ("action", c), ("category", d), ("reviewer", e),
      ("created_at", f)] : List (String × List Char)).insertionSort
        (fun a b => a.1.toList ≤ b.1.toList) =
      [("action", c), ("category", d), ("created_at", f), ("job_id", a), ("reviewer", e),
        ("span_id", b)] := by
  simp +decide only [List.insertionSort_cons, List.insertionSort_nil, List.orderedInsert, if_true,
    if_false]

theorem dumps_chainPayload (jobId : UUID) (spanId : Option UUID) (action : AuditAction)
    (category : String) (reviewerId : UUID) (createdAt : DateTime) :
    dumps (chainPayload jobId spanId action category reviewerId createdAt) =
      '\x7b' :: commas [member "action" (quote action.value), member "category" (quote category),
        member "created_at" (quote (String.ofList createdAt.isoformat)),
        member "job_id" (quote jobId.str), member "reviewer" (quote reviewerId.str),
        member "span_id" (match spanId with
          | some id => quote id.str
          | none => "null".toList)] ++ ['\x7d'] := by
  cases spanId <;>
  · rw [chainPayload, dumps, dumpsFields, dumpsFields, dumpsFields, dumpsFields, dumpsFields,
      dumpsFields, dumpsFields, sort_payload]
    rfl

theorem member_cut {k a b : String} {x y : List Char}
    (h : member k (quote a) ++ x = member k (quote b) ++ y) : a = b ∧ x = y := by
  rw [member, member, List.append_assoc, List.append_assoc] at h
  exact quote_cut (List.cons.inj (List.append_cancel_left h)).2

theorem quote_ne_null (s : String) : quote s ≠ "null".toList := by
  intro h
  exact absurd (List.cons.inj h).1 (by decide)

theorem quote_inj {a b : String} (h : quote a = quote b) : a = b := by
  have h' : quote a ++ [] = quote b ++ [] := by rw [h]
  exact (quote_cut h').1

/-- **The canonical text determines the six fields.** -/
theorem dumps_chainPayload_inj {j j' r r' : UUID} {s s' : Option UUID} {a a' : AuditAction}
    {c c' : String} {t t' : DateTime}
    (h : dumps (chainPayload j s a c r t) = dumps (chainPayload j' s' a' c' r' t')) :
    j = j' ∧ s = s' ∧ a = a' ∧ c = c' ∧ r = r' ∧ t = t' := by
  rw [dumps_chainPayload, dumps_chainPayload] at h
  simp only [commas, List.append_assoc, List.cons_append, List.cons.injEq, true_and] at h
  obtain ⟨ha, h⟩ := member_cut h
  obtain ⟨hc, h⟩ := member_cut (List.cons.inj h).2
  obtain ⟨ht, h⟩ := member_cut (List.cons.inj h).2
  obtain ⟨hj, h⟩ := member_cut (List.cons.inj h).2
  obtain ⟨hr, h⟩ := member_cut (List.cons.inj h).2
  have hs := List.append_cancel_right (List.cons.inj h).2
  rw [member, member] at hs
  have hs := (List.cons.inj (List.append_cancel_left hs)).2
  refine ⟨UUID.str_inj hj, ?_, AuditAction.value_inj ha, hc, UUID.str_inj hr,
    DateTime.isoformat_inj (String.ofList_injective ht)⟩
  cases s with
  | none =>
    cases s' with
    | none => rfl
    | some u => exact absurd hs.symm (quote_ne_null _)
  | some u =>
    cases s' with
    | none => exact absurd hs (quote_ne_null _)
    | some v => rw [UUID.str_inj (quote_inj hs)]

/-- The text hashed for an entry. -/
def hashedText (prev : String) (entry : AuditEntry) : String :=
  prev ++ String.ofList (dumps (entryPayload entry))

theorem entryDigest_eq (env : Env) (prev : String) (entry : AuditEntry) :
    entryDigest env prev entry = env.hashHex (hashedText prev entry) := rfl

/-- The fields of an entry that its hash covers agree. -/
structure SameContent (e f : AuditEntry) : Prop where
  spanId : e.spanId = f.spanId
  action : e.action = f.action
  category : e.category = f.category
  reviewerId : e.reviewerId = f.reviewerId
  createdAt : e.createdAt = f.createdAt

/-- **The hashed text determines the content and the hash before it.** -/
theorem hashedText_inj {p q : String} {e f : AuditEntry} (hp : p.length = 64)
    (hq : q.length = 64) (h : hashedText p e = hashedText q f) : p = q ∧ SameContent e f := by
  have h := congrArg String.toList h
  simp only [hashedText, String.toList_append, String.toList_ofList] at h
  obtain ⟨hpq, hd⟩ := List.append_inj h (by rw [String.length_toList, String.length_toList, hp, hq])
  obtain ⟨_, hs, ha, hc, hr, ht⟩ := dumps_chainPayload_inj hd
  exact ⟨String.toList_inj.mp hpq, hs, ha, hc, hr, ht⟩

end RedactApi
