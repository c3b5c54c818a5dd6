import WhileLang.Proofs.Noninterference

/-!
# Independent statements

Two statements are **independent** when neither assigns a name that the other one reads or
assigns. Then it does not matter which of them comes first: the sequence of the two halts in one
order exactly when it does in the other, after the same number of steps, and in environments that
bind the same (`Stmt.seq_comm_of_independent`). The bindings may stand in another order, as new
names go to the end.

Neither statement sees what the other one does, so by noninterference each lays the same overlay
over the environment whether it comes first or last (`Stmt.Finishes.exists_overlay`), and overlays
of different names can be laid in either order.
-/

namespace WhileLang

open Environment (AgreeOn)

variable {env env' e : Environment} {n : Nat}

namespace Stmt

variable {s t : Stmt}

/-- Neither statement assigns a name that the other one reads or assigns. -/
def Independent (s t : Stmt) : Prop :=
  (∀ x ∈ s.targets, x ∉ t.reads ∧ x ∉ t.targets) ∧
    ∀ x ∈ t.targets, x ∉ s.reads ∧ x ∉ s.targets

instance : Decidable (s.Independent t) :=
  inferInstanceAs (Decidable (_ ∧ _))

theorem Independent.symm (h : s.Independent t) : t.Independent s :=
  ⟨h.2, h.1⟩

/-- An overlay of names that the one assigns binds no name that the other one reads. -/
theorem Independent.agreeOn_merge (h : s.Independent t) {bs : Bindings}
    (hbs : Bindings.names bs ⊆ s.targets) : AgreeOn t.reads env (env.merge bs) :=
  Environment.agreeOn_merge_self fun _ hx hxbs => (h.1 _ (hbs hxbs)).1 hx

/-- Overlays of names that the two assign can be laid in either order. -/
theorem Independent.merge_merge_comm (h : s.Independent t) {bs cs : Bindings}
    (hbs : Bindings.names bs ⊆ s.targets) (hcs : Bindings.names cs ⊆ t.targets) :
    (env.merge bs).merge cs ≈ (env.merge cs).merge bs :=
  Environment.merge_merge_comm env fun _ hx hxcs => (h.1 _ (hbs hx)).2 (hcs hxcs)

/-- What a statement finishes with is an overlay of names that it assigns. In an environment that
agrees on the names that it reads, it **lays the same overlay, in as many steps**. -/
theorem Finishes.exists_overlay (h : s.Finishes env n (.ok e))
    (hagree : AgreeOn s.reads env env') :
    ∃ bs, Bindings.names bs ⊆ s.targets ∧ e = env.merge bs ∧
      s.Finishes env' n (.ok (env'.merge bs)) := by
  have hhalt := State.finishes_ok_iff_haltsIn.1 h
  have hlock := lockstep_overlaid hagree s.targets
  obtain ⟨⟨_, f⟩, hv, hover⟩ := hlock.haltsIn (State.Overlaid.start (.stmt s) env env') hhalt
  obtain ⟨rfl, -, -, bs, hbs, he, rfl⟩ := hover
  exact ⟨bs, hbs, he, State.finishes_ok_iff_haltsIn.2 hv⟩

/-- **Independent statements can be swapped**: the sequence takes as many steps, and binds the
same. -/
theorem Independent.finishes_swap (h : s.Independent t)
    (hst : (seq s t).Finishes env n (.ok e)) :
    ∃ e', (seq t s).Finishes env n (.ok e') ∧ e ≈ e' := by
  obtain ⟨m, k, env₁, hs, ht, rfl⟩ | ⟨f, -, hf⟩ := finishes_seq_iff.1 hst
  · -- the second statement does not see what the first one has done
    obtain ⟨bs, hbs, rfl, -⟩ := hs.exists_overlay fun _ _ => rfl
    obtain ⟨cs, hcs, rfl, ht'⟩ := ht.exists_overlay (h.agreeOn_merge hbs).symm
    -- nor does the first one, put last
    obtain ⟨bs', hbs', heq, hs'⟩ := hs.exists_overlay (h.symm.agreeOn_merge hcs)
    refine ⟨_, ?_, heq ▸ h.merge_merge_comm hbs' hcs⟩
    have hcount : m + 1 + k = k + 1 + m := by omega
    exact hcount ▸ .seq ht' hs'
  · cases hf

end Stmt

/-! ### Runs that halt alike -/

/-- Where the one run halts the other one does too, after as many steps and in an equivalent
state. -/
def State.HaltsAlike (s t : State) : Prop :=
  ∀ n u, s.HaltsIn n u → ∃ v, t.HaltsIn n v ∧ u ≈ v

namespace State.HaltsAlike

variable {s t u v : State}

/-- Two runs that halt both do so after as many steps and in equivalent states. -/
theorem eq_and_equiv (h : s.HaltsAlike t) {n n' : Nat} (hu : s.HaltsIn n u)
    (hv : t.HaltsIn n' v) : n = n' ∧ u ≈ v := by
  obtain ⟨w, hw, hequiv⟩ := h n u hu
  obtain ⟨rfl, rfl⟩ := hw.unique hv
  exact ⟨rfl, hequiv⟩

/-- If each halts where the other one does, then both halt after `n` steps or neither does. -/
theorem exists_haltsIn_iff (h : s.HaltsAlike t) (h' : t.HaltsAlike s) {n : Nat} :
    (∃ u, s.HaltsIn n u) ↔ ∃ v, t.HaltsIn n v := by
  constructor
  · rintro ⟨u, hu⟩
    obtain ⟨v, hv, -⟩ := h n u hu
    exact ⟨v, hv⟩
  · rintro ⟨v, hv⟩
    obtain ⟨u, hu, -⟩ := h' n v hv
    exact ⟨u, hu⟩

/-- Machines with the same settings then succeed together, and count the same steps. -/
theorem runsTo (h : s.HaltsAlike t) {settings : Settings} {r : Reply State}
    (hr : (Machine.start settings s).RunsTo r) (hres : r.result = .ok u) :
    ∃ r' v, (Machine.start settings t).RunsTo r' ∧ r'.result = .ok v ∧
      r.machine.steps = r'.machine.steps ∧ u ≈ v := by
  obtain ⟨n, hreach, ⟨w, hw, hn, hok⟩ | ⟨w, f, -, -, herr⟩ | ⟨limit, -, -, -, herr⟩⟩ := hr.ends
  · obtain rfl : w = u := Except.ok.inj (hok.symm.trans hres)
    obtain ⟨v, hv, huv⟩ := h n w hw
    -- what a machine at its start affords depends on its settings only
    obtain ⟨r', hr', hres', hreach'⟩ :=
      Machine.exists_runsTo_of_haltsIn (m := .start settings t) hv hn
    exact ⟨r', v, hr', hres', hreach.steps_eq.trans hreach'.steps_eq.symm, huv⟩
  · cases herr.symm.trans hres
  · cases herr.symm.trans hres

/-- Two machines with the same settings that succeed both have counted the same steps, and are in
equivalent states. -/
theorem steps_eq_and_equiv (h : s.HaltsAlike t) {settings : Settings} {r r' : Reply State}
    (hr : (Machine.start settings s).RunsTo r) (hres : r.result = .ok u)
    (hr' : (Machine.start settings t).RunsTo r') (hres' : r'.result = .ok v) :
    r.machine.steps = r'.machine.steps ∧ u ≈ v := by
  obtain ⟨r'', w, hr'', hres'', hsteps, hequiv⟩ := h.runsTo hr hres
  obtain rfl := hr''.unique hr'
  obtain rfl := Except.ok.inj (hres''.symm.trans hres')
  exact ⟨hsteps, hequiv⟩

/-- If each halts where the other one does, then with the same settings both succeed or neither
does. -/
theorem exists_runsTo_iff (h : s.HaltsAlike t) (h' : t.HaltsAlike s) {settings : Settings} :
    (∃ r u, (Machine.start settings s).RunsTo r ∧ r.result = .ok u) ↔
      ∃ r u, (Machine.start settings t).RunsTo r ∧ r.result = .ok u := by
  constructor
  · rintro ⟨r, u, hr, hres⟩
    obtain ⟨r', v, hr', hres', -⟩ := h.runsTo hr hres
    exact ⟨r', v, hr', hres'⟩
  · rintro ⟨r, u, hr, hres⟩
    obtain ⟨r', v, hr', hres', -⟩ := h'.runsTo hr hres
    exact ⟨r', v, hr', hres'⟩

end State.HaltsAlike

namespace Stmt

variable {s t : Stmt}

/-- The runs of independent statements halt alike in either order. -/
theorem Independent.haltsAlike (h : s.Independent t) (env : Environment) :
    State.HaltsAlike ⟨.stmt (seq s t), env⟩ ⟨.stmt (seq t s), env⟩ := by
  intro n u hu
  obtain ⟨e, rfl⟩ := State.exists_eq_of_haltsIn hu
  obtain ⟨e', hts, hequiv⟩ := h.finishes_swap (State.finishes_ok_iff_haltsIn.2 hu)
  exact ⟨⟨.stmt doNothing, e'⟩, State.finishes_ok_iff_haltsIn.1 hts, rfl, hequiv⟩

/-- Evaluation of independent statements succeeds in either order, with equivalent
environments. -/
theorem Independent.exists_evaluate_swap (h : s.Independent t) {fuel : Nat}
    (hst : (seq s t).evaluate fuel env = some (.ok e)) :
    ∃ fuel' e', (seq t s).evaluate fuel' env = some (.ok e') ∧ e ≈ e' := by
  obtain ⟨n, hn⟩ := exists_finishes_of_evaluate hst
  obtain ⟨e', hts, hequiv⟩ := h.finishes_swap hn
  obtain ⟨fuel', hfuel'⟩ := hts.exists_evaluate_eq
  exact ⟨fuel', e', hfuel', hequiv⟩

/-- Evaluation of independent statements succeeds in both orders or in neither. -/
theorem Independent.exists_evaluate_iff (h : s.Independent t) :
    (∃ fuel e, (seq s t).evaluate fuel env = some (.ok e)) ↔
      ∃ fuel e, (seq t s).evaluate fuel env = some (.ok e) := by
  constructor
  · rintro ⟨fuel, e, he⟩
    obtain ⟨fuel', e', he', -⟩ := h.exists_evaluate_swap he
    exact ⟨fuel', e', he'⟩
  · rintro ⟨fuel, e, he⟩
    obtain ⟨fuel', e', he', -⟩ := h.symm.exists_evaluate_swap he
    exact ⟨fuel', e', he'⟩

/-- **Independent statements commute.** Of the two sequences of them, evaluation succeeds on both
or on neither, the runs of both halt after `n` steps or those of neither do, and machines with the
same settings succeed on both or on neither. Where they succeed, the environments bind the same,
and the machines count the same steps. -/
theorem seq_comm_of_independent (h : s.Independent t) (env : Environment) :
    let st : State := ⟨.stmt (seq s t), env⟩
    let ts : State := ⟨.stmt (seq t s), env⟩
    ((∃ fuel e, (seq s t).evaluate fuel env = some (.ok e)) ↔
      ∃ fuel e, (seq t s).evaluate fuel env = some (.ok e)) ∧
    (∀ fuel fuel' e e', (seq s t).evaluate fuel env = some (.ok e) →
      (seq t s).evaluate fuel' env = some (.ok e') → e ≈ e') ∧
    (∀ n, (∃ u, st.HaltsIn n u) ↔ ∃ u, ts.HaltsIn n u) ∧
    (∀ n n' u u', st.HaltsIn n u → ts.HaltsIn n' u' → n = n' ∧ u ≈ u') ∧
    ∀ settings,
      ((∃ r u, (Machine.start settings st).RunsTo r ∧ r.result = .ok u) ↔
        ∃ r u, (Machine.start settings ts).RunsTo r ∧ r.result = .ok u) ∧
      ∀ r r' u u', (Machine.start settings st).RunsTo r → r.result = .ok u →
        (Machine.start settings ts).RunsTo r' → r'.result = .ok u' →
        r.machine.steps = r'.machine.steps ∧ u ≈ u' := by
  intro st ts
  have hst : st.HaltsAlike ts := h.haltsAlike env
  have hts : ts.HaltsAlike st := h.symm.haltsAlike env
  refine ⟨h.exists_evaluate_iff, fun fuel fuel' e e' he he' => ?_,
    fun n => hst.exists_haltsIn_iff hts, fun n n' u u' => hst.eq_and_equiv,
    fun settings => ⟨hst.exists_runsTo_iff hts, fun r r' u u' => hst.steps_eq_and_equiv⟩⟩
  obtain ⟨fuel'', e'', he'', hequiv⟩ := h.exists_evaluate_swap he
  obtain rfl := Except.ok.inj (evaluate_unique he'' he')
  exact hequiv

/-- A counting loop and an assignment to another name: put last, the loop has the same steps to
take and counts as far. -/
theorem seq_comm_counting_loop :
    let count : Stmt := .loop (.binary .lessThan (.var "i") (.literal (.number 2)))
      (.assign "i" (.binary .add (.var "i") (.literal (.number 1))))
    let note : Stmt := .assign "y" (.literal (.number 5))
    let env : Environment := .ofList [("i", .number 1)]
    let last : Environment := .ofList [("i", .number 2), ("y", .number 5)]
    count.Independent note ∧
      (∃ fuel e, (seq note count).evaluate fuel env = some (.ok e) ∧ last ≈ e) ∧
      ∃ u, State.HaltsIn ⟨.stmt (seq note count), env⟩ 14 u ∧ last ≈ u.env := by
  intro count note env last
  have h : count.Independent note := by decide
  have hlast : (seq count note).evaluate 2 env = some (.ok last) := rfl
  have hlive : State.LiveAt ⟨.stmt (seq count note), env⟩ 13 := ⟨_, rfl, rfl⟩
  have hhalt : State.HaltsIn ⟨.stmt (seq count note), env⟩ 14 ⟨.stmt doNothing, last⟩ :=
    ⟨rfl, rfl, fun k hk => hlive.of_le (Nat.le_of_lt_succ hk)⟩
  obtain ⟨heval, hequiv, hhalts, hsame, -⟩ := seq_comm_of_independent h env
  obtain ⟨fuel, e, he⟩ := heval.1 ⟨2, last, hlast⟩
  obtain ⟨u, hu⟩ := (hhalts 14).1 ⟨_, hhalt⟩
  obtain ⟨-, -, hu'⟩ := hsame 14 14 _ u hhalt hu
  exact ⟨h, ⟨fuel, e, he, hequiv 2 fuel last e hlast he⟩, u, hu, hu'⟩

end Stmt

end WhileLang
