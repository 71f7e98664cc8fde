import Cypher.Parse

/-!
# Outcomes

Every fault is an error, so a query is accepted exactly when there is a tree
and nothing is wrong.
-/

namespace Cypher

theorem Fault.isError_diagnostic (f : Fault) : f.diagnostic.isError = true := rfl

namespace Outcome

variable {o : Outcome}

theorem hasErrors_eq_false_iff : o.hasErrors = false ↔ o.faults = [] := by
  unfold hasErrors diagnostics
  rw [List.any_map]
  cases o.faults with
  | nil => simp
  | cons f fs => simp [Fault.isError_diagnostic]

/-- A tree and no fault is what it takes to be accepted. -/
theorem result_eq_ok_iff {source : Source} {q : Query} :
    o.result source = .ok q ↔ o.query = some q ∧ o.faults = [] := by
  unfold result
  rw [← hasErrors_eq_false_iff]
  cases o.query with
  | none => simp
  | some q' =>
    cases o.hasErrors with
    | true => simp
    | false => simp

end Outcome

/-- A text is accepted if it is read to its end and nothing is wrong. -/
theorem parse_eq_ok_iff {text : String} {config : Config} {q : Query} :
    parse text config = .ok q
      ↔ (Outcome.ofText text config).query = some q ∧ (Outcome.ofText text config).faults = [] :=
  Outcome.result_eq_ok_iff

theorem exists_parse_of_isOk (text : String) (h : (parse text).isOk = true) :
    ∃ q, parse text = .ok q := by
  cases hparse : parse text with
  | ok q => exact ⟨q, rfl⟩
  | error e =>
    rw [hparse] at h
    cases h

/-- What is computed from the tree of a text is so of the tree. -/
theorem exists_of_map_toOption {α : Type} {text : String} {f : Query → α} {a : α}
    (h : (parse text).toOption.map f = some a) : ∃ q, parse text = .ok q ∧ f q = a := by
  cases hparse : parse text with
  | error r =>
    rw [hparse] at h
    cases h
  | ok q =>
    rw [hparse] at h
    exact ⟨q, rfl, Option.some.inj h⟩

end Cypher
