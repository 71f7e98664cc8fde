import Cypher.Proofs.Compared.Truncated
import Cypher.Proofs.Leaves.Clause
import Cypher.Proofs.Leaves.Operators
import Cypher.Proofs.Lexing.Order

/-!
# The leaves of queries

An accepted text is read without recovery too, and then nothing is skipped:
every token is passed by the scan and consumed by the grammar, in one order.
The leaves of the tree are the leaves among the tokens.
-/

namespace Cypher

namespace Grammar

variable {config : Config} {o : Outlook} {read : List Leaf} {s : State}

theorem coversValues_expression (hrecover : config.recover = false) :
    CoversValues (expression config) := coversValues_expressionWithin hrecover _

theorem covers_version :
    Covers version (fun v => v.toList.map .number) [] [.value] [.value] := by
  intro o read s h
  refine Leads.consume (fun hdue => ?_) fun _ =>
    Leads.pure (h.of_eq (List.append_nil read).symm)
  have hbehind := h.advance_nil (.plain rfl (by simp) hdue)
  refine Leads.current ?_
  split
  · next hnumber =>
    exact Leads.advance (Leads.pure (hbehind.advance (.integer (by simp) hnumber)))
  · next hnumber => exact Leads.advance (Leads.pure (hbehind.advance (.float hnumber)))
  · exact Leads.fail

theorem covers_singleQuery (hrecover : config.recover = false) :
    Covers (singleQuery config) SingleQuery.leaves [] [.value] [.value, .call] := by
  intro o read s h
  refine Leads.start fun begin => ?_
  refine ((covers_clause (coversValues_expression hrecover)).many (h.mono (by simp))).bind
    fun clauses s h => ?_
  split
  · exact Leads.fail
  · exact Leads.spanFrom fun span => Leads.pure h

theorem leads_unionPart (hrecover : config.recover = false) {left : Joined}
    (h : At o (read ++ left.body.leaves) [] [.value] s) :
    Leads (unionPart config left) s fun j =>
      At o (read ++ j.body.leaves) [] [.value, .call] := by
  have hright {s : State} (all : Bool) (h : At o (read ++ left.body.leaves) [] [.value] s) :
      Leads (singleQuery config >>= fun right =>
        pure (⟨.union all left.body right ⟨left.body.span.start, right.span.stop⟩,
          left.height + 1⟩ : Joined)) s fun j =>
        At o (read ++ j.body.leaves) [] [.value, .call] := by
    refine (covers_singleQuery hrecover h).bind fun right s h => Leads.pure ?_
    exact h.of_eq (by simp [QueryBody.leaves])
  refine Leads.checkHeight (Leads.consume (fun hdue => ?_) fun _ => hright false h)
  exact hright true (h.advance_nil (.plain rfl (by simp) hdue))

theorem leads_joinPart (hrecover : config.recover = false) {left : Joined}
    (h : At o (read ++ left.body.leaves) [] [.value, .call] s) :
    Leads (joinPart config left) s fun r =>
      At o (read ++ r.value.body.leaves) [] [.value, .call] := by
  refine Leads.consume (fun hdue => ?_) fun _ => Leads.pure h
  exact (leads_unionPart hrecover (h.passWord rfl hdue)).bind fun j s h => Leads.pure h

theorem covers_queryBody (hrecover : config.recover = false) :
    Covers (queryBody config) QueryBody.leaves [] [.value] [.value, .call] := by
  intro o read s h
  refine (covers_singleQuery hrecover h).bind fun first s h => ?_
  have hwhole : Leads (iterate (joinPart config) ⟨.single first, 1⟩) s fun j =>
      At o (read ++ j.body.leaves) [] [.value, .call] :=
    Leads.iterate h fun j s h => leads_joinPart hrecover h
  exact hwhole.bind fun whole s h => Leads.pure h

/-- Where nothing is ahead, the leaves read are all there are. -/
theorem At.leaves_eq {brackets : List Bracket} {modes : List Mode}
    (h : At o read brackets modes s) (hend : s.current.kind = .eof) : o.leaves = read := by
  obtain ⟨m, -, hleaves, -⟩ := h.scan
  have hahead : s.ahead = [] := by
    cases hahead : s.ahead with
    | nil => rfl
    | cons t rest =>
      have hcurrent : s.current = t := by rw [State.current, hahead]; rfl
      exact absurd (hcurrent ▸ hend) (h.proper t (hahead ▸ List.mem_cons_self))
  rw [hleaves, hahead]
  exact List.append_nil read

theorem leads_query (hrecover : config.recover = false) (h : At o [] [] [.value] s) :
    Leads (query config) s fun q _ => q.leaves = o.leaves := by
  refine Leads.start fun begin => ?_
  refine (covers_version h).bind fun header s h => ?_
  refine (covers_queryBody hrecover h).bind fun body s h => ?_
  have hend : Leads endOfQuery s fun _ s' => s.current.kind = .eof ∧ s' = s := by
    refine Leads.current ?_
    split
    · next hkind => exact Leads.pure ⟨hkind, rfl⟩
    · exact Leads.fail
  refine hend.bind fun _ s' hs' => Leads.spanFrom fun span => Leads.pure ?_
  rw [h.leaves_eq hs'.1]
  rfl

end Grammar

/-! ## The tokens of a text -/

/-- Before the first token. -/
theorem TokenStream.atStart (text : String) :
    Grammar.At
      { tokens := (ofText text).tokens
        leaves := (ofText text).leaves
        closing := fun n => Grammar.afterGroup (n + 1) (ofText text).tokens
        room := (ofText text).tokens.length + 1 }
      [] [] [.value] { ahead := (ofText text).tokens, eof := (ofText text).eof } where
  scan := ⟨.value, List.mem_singleton_self _, rfl, [], rfl, rfl⟩
  closing _ := rfl
  proper _ ht := ne_eof_of_mem ht
  ended := rfl
  room := Nat.lt_succ_self _

/-- No token of an accepted text is lost, doubled or moved. Walked from left to
right, the tree shows the names and values that a scan finds among the tokens. -/
theorem leaves_eq_of_parse {text : String} {config : Config} {q : Query}
    (h : parse text config = .ok q) : q.leaves = (TokenStream.ofText text).leaves := by
  obtain ⟨hquery, hfaults⟩ := parse_eq_ok_iff.1 h
  -- The reading without recovery answers the same tree.
  have hplain : (Outcome.ofText text ⟨config.maxDepth, false⟩).query = some q := by
    cases hrecover : config.recover with
    | false => rw [← hrecover]; exact hquery
    | true =>
      have hsame : config = ⟨config.maxDepth, true⟩ := by rw [← hrecover]
      rw [hsame] at hquery hfaults
      obtain ⟨grammatical, hon, hoff⟩ :=
        Outcome.ofTokens_truncated (TokenStream.ofText text) config.maxDepth
      have hnone : grammatical = [] :=
        (List.append_eq_nil_iff.1 (hon.symm.trans hfaults)).2
      rw [hnone] at hoff
      exact (congrArg Outcome.query hoff).trans hquery
  unfold Outcome.ofText Outcome.ofTokens at hplain
  split at hplain
  · next q' s' hrun =>
    cases hplain
    exact Grammar.leads_query rfl (TokenStream.atStart text) _ _ hrun
  · cases hplain

/-- A text in which reserved words are labels, types and keys. -/
private def reservedNames : String :=
  "MATCH (a:Order)-[r:IN|END*1..2]->(\x7bon: NULL\x7d) WHERE exists(a.set) "
    ++ "RETURN a \x7b.all, b: 3\x7d"

theorem leaves_eq_of_parse_reservedNames :
    ∃ q, parse reservedNames = .ok q
      ∧ q.leaves = [.name "a", .name "Order", .name "r", .name "IN", .name "END", .name "on",
        .null, .name "exists", .name "a", .name "set", .name "a", .name "all", .name "b",
        .number "3"] := by
  have haccepted : (parse reservedNames).isOk = true := by decide +kernel
  obtain ⟨q, hq⟩ : ∃ q, parse reservedNames = .ok q := by
    cases hparse : parse reservedNames with
    | ok q => exact ⟨q, rfl⟩
    | error e =>
      rw [hparse] at haccepted
      cases haccepted
  exact ⟨q, hq, (leaves_eq_of_parse hq).trans (by decide +kernel)⟩

end Cypher
