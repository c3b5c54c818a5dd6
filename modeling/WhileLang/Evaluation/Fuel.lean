import WhileLang.Evaluation

/-!
# Fuel of evaluation

More fuel never changes a result. A program therefore finishes with at most one result,
whatever fuel it is given.
-/

namespace WhileLang

/-- Going round a loop with more fuel, and with a body that finishes at least as often. -/
theorem goRound_mono {test : Environment → Except Fault Bool}
    {body body' : Environment → Option (Except Fault Environment)}
    (hbody : ∀ env r, body env = some r → body' env = some r) {fuel fuel' : Nat}
    (hle : fuel ≤ fuel') {env : Environment} {r : Except Fault Environment}
    (h : goRound test body fuel env = some r) : goRound test body' fuel' env = some r := by
  induction fuel generalizing fuel' env with
  | zero => simp [goRound] at h
  | succ fuel ih =>
    obtain ⟨fuel', rfl⟩ : ∃ k, fuel' = k + 1 := ⟨fuel' - 1, by omega⟩
    rw [goRound] at h ⊢
    split at h
    · exact h
    · exact h
    · cases hb : body env with
      | none => simp [hb] at h
      | some stopped =>
        rw [hbody env stopped hb]
        rw [hb] at h
        cases stopped with
        | ok next => exact ih (by omega) h
        | error f => exact h

/-- More fuel **keeps the result** of a statement. -/
theorem Stmt.evaluate_mono {fuel fuel' : Nat} (hle : fuel ≤ fuel') {s : Stmt}
    {env : Environment} {r : Except Fault Environment} (h : s.evaluate fuel env = some r) :
    s.evaluate fuel' env = some r := by
  induction s generalizing env r with
  | doNothing => exact h
  | assign name expr => exact h
  | branch condition consequence alternative ihc iha =>
    rw [evaluate] at h ⊢
    split at h
    · exact h
    · exact ihc h
    · exact iha h
  | seq first second ihf ihs =>
    rw [evaluate] at h ⊢
    cases hf : first.evaluate fuel env with
    | none => simp [hf] at h
    | some stopped =>
      rw [ihf hf]
      rw [hf] at h
      cases stopped with
      | ok next => exact ihs h
      | error f => exact h
  | loop condition body ih => exact goRound_mono (fun _ _ => ih) hle h

/-- A statement finishes with one result only. -/
theorem Stmt.evaluate_unique {fuel fuel' : Nat} {s : Stmt} {env : Environment}
    {r r' : Except Fault Environment} (h : s.evaluate fuel env = some r)
    (h' : s.evaluate fuel' env = some r') : r = r' :=
  Option.some.inj
    ((evaluate_mono (Nat.le_max_left fuel fuel') h).symm.trans
      (evaluate_mono (Nat.le_max_right fuel fuel') h'))

/-- More fuel **keeps the result** of a term. -/
theorem Term.evaluate_mono {fuel fuel' : Nat} (hle : fuel ≤ fuel') {t : Term}
    {env : Environment} {r : Except Fault Outcome} (h : t.evaluate fuel env = some r) :
    t.evaluate fuel' env = some r := by
  cases t with
  | expr e => exact h
  | stmt s =>
    obtain ⟨q, hq, rfl⟩ := Option.map_eq_some_iff.1 h
    exact Option.map_eq_some_iff.2 ⟨q, Stmt.evaluate_mono hle hq, rfl⟩

/-- A term finishes with one result only. -/
theorem Term.evaluate_unique {fuel fuel' : Nat} {t : Term} {env : Environment}
    {r r' : Except Fault Outcome} (h : t.evaluate fuel env = some r)
    (h' : t.evaluate fuel' env = some r') : r = r' :=
  Option.some.inj
    ((evaluate_mono (Nat.le_max_left fuel fuel') h).symm.trans
      (evaluate_mono (Nat.le_max_right fuel fuel') h'))

end WhileLang
