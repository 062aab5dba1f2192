/-
Patterns put together.

The automaton of two patterns with a bar between them (`compile_bar`), or of two
patterns without bars one after the other (`compile_append`), is made from the
automata of the two: from their states that are not final, with other numbers, from
how many groups they have, and from whether they can match.
-/
import RegexAutomaton.Proofs.OutlineAppend
import RegexAutomaton.Proofs.PhraseLiveness
import RegexAutomaton.Proofs.Relinking

namespace RegexAutomaton

/-! ## Parts of an automaton -/

namespace Automaton

/-- The states that are not final. -/
def inner (a : Automaton) : List State := a.states.take a.accept

/-- The final states of an automaton with `n` other states. -/
def sinks (n : Nat) : List State := [(State.final n).looped, (State.final (n + 1)).looped]

@[simp] theorem inner_ofStates (states : List State) (groupCount : Nat) (neverMatches : Bool) :
    (ofStates states groupCount neverMatches).inner = states.map State.connected := by
  rw [inner, accept_ofStates, ofStates, List.take_left' (List.length_map _)]

end Automaton

/-- The number `new` for `old`, and no other change. -/
def redirect (old new k : Nat) : Nat := if k = old then new else k

@[simp] theorem redirect_self (old new : Nat) : redirect old new old = new := if_pos rfl

theorem redirect_of_ne {old new k : Nat} (h : k ≠ old) : redirect old new k = k := if_neg h

namespace Relinking

/-- Behind `n` other states. -/
def shift (n : Nat) : Relinking where
  id := (· + n)
  next := (· + n)
  fail := (· + n)
  group := (· + n)
  close := fun _ => (· + n)

/-- For the `n` states before a bar with `n'` states behind it: what led to the
accepting state still does, and what led to the rejecting state falls back to the
branches behind the bar. -/
def beforeBar (n n' : Nat) : Relinking where
  id := fun k => k
  next := redirect n (n + n')
  fail := redirect (n + 1) n
  group := redirect (n + 1) (n + n' + 1)
  close := fun _ => redirect n (n + n')

/-- For `n` states with `n'` more behind them: what led to the accepting state goes
on with those, and what led to the rejecting state still does. A state that opens
no group closes none, so it keeps the accepting state. -/
def beforeNext (n n' : Nat) : Relinking where
  id := fun k => k
  next := fun k => k
  fail := redirect (n + 1) (n + n' + 1)
  group := redirect (n + 1) (n + n' + 1)
  close := fun opensGroup k => if opensGroup then k else n + n'

theorem renumbers_redirect {old new n : Nat} (h : n ≤ old) : Renumbers (redirect old new) 0 0 n := fun k hk => by
  rw [redirect_of_ne (by omega)]

theorem carries_shift {n n' : Nat} : (shift n).Carries (.top n') (.top (n + n')) 0 n n' := by
  have hnumbers (f : Nat → Nat) (hf : f ∈ [fun k : Nat => k + n]) : Renumbers f 0 n n' := fun k _ => by
    obtain rfl := List.mem_singleton.1 hf
    show 0 + k + n = n + k
    omega
  refine ⟨fun f hf => hnumbers f (by simpa [shift] using hf), ?_, ?_, ?_, ?_, rfl, nofun, ?_⟩ <;>
    simp only [shift, Setting.top] <;> omega

theorem carries_beforeBar {n n' : Nat} :
    (beforeBar n n').Carries (.top n) { Setting.top (n + n') with fail := n } 0 0 n := by
  refine ⟨?_, redirect_self .., redirect_self .., redirect_self .., redirect_self .., rfl, nofun, redirect_self ..⟩
  simp only [beforeBar, List.forall_mem_cons]
  exact ⟨fun _ _ => rfl, renumbers_redirect (Nat.le_refl n), renumbers_redirect (Nat.le_succ n),
    renumbers_redirect (Nat.le_succ n), renumbers_redirect (Nat.le_refl n), nofun⟩

theorem carries_beforeNext {n n' : Nat} :
    (beforeNext n n').Carries (.top n) { Setting.top (n + n') with follow := n } 0 0 n := by
  refine ⟨?_, rfl, rfl, redirect_self .., redirect_self .., rfl, nofun, rfl⟩
  simp only [beforeNext, List.forall_mem_cons]
  exact ⟨fun _ _ => rfl, fun _ _ => rfl, renumbers_redirect (Nat.le_succ n),
    renumbers_redirect (Nat.le_succ n), fun _ _ => rfl, nofun⟩

end Relinking

/-- Without bars, an outline is entered by what is right before it, whether it has
states or not. -/
theorem Relinking.carries_of_not_barred {t : Outline} (h : t.barred = false) {n : Nat} :
    (beforeNext n t.size).Carries (.top n) (t.settingBefore (.top (n + t.size)) n) 0 0 n := by
  have hentry : t.entry (.top (n + t.size)) n = n := by
    unfold Outline.entry
    cases hopens : t.opens with
    | true => rfl
    | false =>
      rw [Outline.size_of_not_opens h hopens]
      rfl
  rw [Outline.settingBefore, hentry, Outline.fallback_of_not_barred h]
  exact carries_beforeNext

/-- **The automaton of two outlines in a row**, of which the second is `t` behind its
bar, if it has one there. -/
theorem Outline.ofStates_append {o t u : Outline} {r : Relinking} (ho : o.Sound) (hu : u.Sound)
    (hstates : t.states = u.states) (hsize : t.size = u.size) (hquantifier : t.quantifier? = none)
    (hfollows : t.Follows o (.top (o.size + u.size)))
    (hcarries : r.Carries (.top o.size) (t.settingBefore (.top (o.size + u.size)) o.size) 0 0 o.size)
    (groupCount : Nat) (neverMatches : Bool) :
    Automaton.ofStates ((o.append t).states (.top (o.append t).size) 0) groupCount neverMatches =
      { states := ((o.states (.top o.size) 0).map State.connected).map (State.relink r) ++
          ((u.states (.top u.size) 0).map State.connected).map (State.relink (.shift o.size)) ++
          Automaton.sinks (o.size + u.size)
        groupCount, neverMatches } := by
  have hplace : o.size = 0 + o.size := (Nat.zero_add _).symm
  have hboth := states_append (c := .top (o.size + u.size)) hfollows hquantifier hplace
  rw [Automaton.ofStates, length_states, size_append, hsize, hboth, List.map_append, hstates,
    map_relink_states ho hcarries, map_relink_states hu Relinking.carries_shift]
  rfl

/-! ## Phrases and their automata -/

namespace Token

/-- The tokens of a pattern, without their places. -/
def listing (encoding : Encoding) (pattern : List Char) : List Token :=
  (tokens encoding pattern).pieces.map (·.value)

/-- Whether some of the tokens, with `depth` groups open before them, is a bar
outside all groups. -/
def hasTopBar : (depth : Nat) → List Token → Bool
  | _, [] => false
  | depth, groupOpen :: rest => hasTopBar (depth + 1) rest
  | depth, groupClose :: rest => hasTopBar (depth - 1) rest
  | depth, bar :: rest => depth == 0 || hasTopBar depth rest
  | depth, _ :: rest => hasTopBar depth rest

theorem listing_of_reads {encoding : Encoding} {pattern : List Char} {p : Phrase}
    (h : (read encoding).Reads 0 pattern p.tokens) : listing encoding pattern = p.values := by
  rw [listing, tokens_of_reads h, Phrase.values]

end Token

namespace Phrase

variable {p q : Phrase} {options : Options}

theorem hasTopBar_values (p : Phrase) (depth : Nat) (later : List Token) :
    Token.hasTopBar depth (p.values ++ later) = (depth == 0 && p.barred || Token.hasTopBar depth later) := by
  induction p generalizing depth later with
  | nil => simp [barred]
  | leaf t hleaf rest ih =>
    rw [values_leaf, List.cons_append, barred]
    generalize t.value = t at hleaf
    cases t with
    | groupOpen => exact absurd rfl hleaf.1
    | groupClose => exact absurd rfl hleaf.2
    | bar => cases hdepth : depth == 0 <;> simp [Token.hasTopBar, ih, hdepth]
    | _ => exact ih depth later
  | group o inner z rest ihInner ihRest =>
    rw [values_group, List.cons_append, List.append_assoc, Token.hasTopBar, ihInner, List.cons_append,
      Token.hasTopBar, Nat.add_sub_cancel, ihRest, barred]
    simp

theorem barred_of_hasTopBar (p : Phrase) : Token.hasTopBar 0 p.values = p.barred := by
  have h := p.hasTopBar_values 0 []
  simpa [Token.hasTopBar] using h

theorem countP_mark (h : p.items.countP (·.value == .token .groupOpen) = p.values.count .groupOpen)
    (first last : Nat) : (p.body first last).countP (·.value == .token .groupOpen) = p.values.count .groupOpen := by
  unfold body mark
  split
  · simp [h]
  · exact h

/-- The items of a phrase that open a group. -/
theorem countP_items (p : Phrase) :
    p.items.countP (·.value == .token .groupOpen) = p.values.count .groupOpen := by
  induction p with
  | nil => rfl
  | leaf t hleaf rest ih =>
    have hne : t.value ≠ .groupOpen := hleaf.1
    simp [items, Spanned.map, ih, hne]
  | group o inner z rest ihInner ihRest =>
    have hbody : (mark inner.barred (o + 1) z inner.items).countP (·.value == .token .groupOpen) = _ :=
      countP_mark ihInner (o + 1) z
    simp only [items, List.countP_cons, List.countP_append, hbody, ihRest, values_group, List.count_cons,
      List.count_append]
    simp

/-! ## Where two phrases meet -/

/-- No two neighbours refuse each other, the ends of the pattern included. -/
def Checks (p : Phrase) : Prop := List.IsChain Role.Admits (.start :: (p.roles ++ [.finish]))

theorem checks_iff : p.Checks ↔ List.IsChain Role.Admits p.roles ∧
    (∀ r ∈ p.roles.head?, Role.start.Admits r) ∧ ∀ r ∈ p.roles.getLast?, r.Admits .finish := by
  have hends : Role.start.Admits .finish := rfl
  rw [Checks, List.isChain_cons, List.isChain_append]
  cases p.roles with
  | nil => simp [hends]
  | cons r roles => simp [and_left_comm]

/-- A phrase that is well formed starts with no quantifier. -/
theorem Checks.quantifier?_outline (h : p.Checks) : p.outline.quantifier? = none := by
  by_contra hne
  have hfirst := role_of_quantifier? (Option.isSome_iff_ne_none.2 hne)
  cases (checks_iff.1 h).2.1 _ hfirst

theorem Checks.head?_ne_quantifier (h : p.Checks) (q : Quantifier) : p.values.head? ≠ some (.quantifier q) := by
  intro hfirst
  have hrole : p.roles.head? = some .quantifier := by
    rw [roles, List.head?_map, hfirst]
    rfl
  cases (checks_iff.1 h).2.1 _ hrole

/-- Two phrases that are well formed are so together if they may meet. -/
theorem Checks.append_iff (hp : p.Checks) (hq : q.Checks) (k : Nat) : (p.append (q.shift k)).Checks ↔
    ∀ r ∈ p.roles.getLast?, ∀ r' ∈ q.roles.head?, r.Admits r' := by
  rw [checks_iff] at hp hq ⊢
  rw [roles_append, roles_shift, List.isChain_append, List.head?_append, List.getLast?_append]
  constructor
  · exact fun h => h.1.2.2
  · refine fun h => ⟨⟨hp.1, hq.1, h⟩, fun r hr => ?_, fun r hr => ?_⟩
    · rcases Option.or_eq_some_iff.1 hr with hr | ⟨-, hr⟩
      · exact hp.2.1 r hr
      · exact hq.2.1 r hr
    · rcases Option.or_eq_some_iff.1 hr with hr | ⟨-, hr⟩
      · exact hq.2.2 r hr
      · exact hp.2.2 r hr

/-- Two phrases that are well formed, and not empty, are so together with a bar between
them. -/
theorem Checks.append_branch (hp : p.Checks) (hq : q.Checks) (hpne : p.roles ≠ []) (hqne : q.roles ≠ [])
    (k : Nat) : (p.append (q.branch.shift k)).Checks := by
  have hleft {t : Token} (h : t.role.Admits .finish) (hopen : t.role ≠ .groupOpen) : t.role.Admits .bar := by
    cases t <;> first | rfl | exact absurd rfl hopen | cases h
  have hright {t : Token} (h : Role.start.Admits t.role) (hclose : t.role ≠ .groupClose) :
      Role.bar.Admits t.role := by
    cases t <;> first | rfl | exact absurd rfl hclose | cases h
  rw [checks_iff] at hp hq ⊢
  rw [roles_append, roles_shift, roles_branch, List.isChain_append, List.isChain_cons,
    List.head?_append_of_ne_nil _ hpne, List.getLast?_append_of_ne_nil _ (List.cons_ne_nil _ _),
    List.getLast?_cons_of_ne_nil hqne]
  refine ⟨⟨hp.1, ⟨fun r hr => ?_, hq.1⟩, fun r hr r' hr' => ?_⟩, hp.2.1, hq.2.2⟩
  · obtain ⟨t, -, rfl⟩ := List.mem_map.1 (List.mem_of_head? hr)
    exact hright (hq.2.1 _ hr) (head?_roles hr)
  · obtain rfl : Role.bar = r' := Option.some.inj hr'
    obtain ⟨t, -, rfl⟩ := List.mem_map.1 (List.mem_of_getLast? hr)
    exact hleft (hp.2.2 _ hr) (getLast?_roles hr)

/-- Two phrases that are well formed are so together unless an end anchor is followed
by something else. -/
theorem Checks.append_iff_values (hp : p.Checks) (hq : q.Checks) (k : Nat) : (p.append (q.shift k)).Checks ↔
    ¬ (p.values.getLast? = some .anchorEnd ∧ ∃ t, q.values.head? = some t ∧ t ≠ .anchorEnd) := by
  have hseam {t u : Token} (ht : t.role.Admits .finish) (hopen : t.role ≠ .groupOpen)
      (hu : Role.start.Admits u.role) (hclose : u.role ≠ .groupClose) :
      t.role.Admits u.role ↔ ¬ (t = .anchorEnd ∧ u ≠ .anchorEnd) := by
    cases t <;> cases u <;>
      simp_all [Role.Admits, Token.role, Item.role, Role.refusal?]
  have hlast : p.roles.getLast? = p.values.getLast?.map Token.role := List.getLast?_map ..
  have hhead : q.roles.head? = q.values.head?.map Token.role := List.head?_map ..
  rw [hp.append_iff hq]
  rw [checks_iff, hlast] at hp
  rw [checks_iff, hhead] at hq
  have hopen (r : Role) (hr : p.roles.getLast? = some r) : r ≠ .groupOpen := getLast?_roles hr
  have hclose (r : Role) (hr : q.roles.head? = some r) : r ≠ .groupClose := head?_roles hr
  rw [hlast] at hopen ⊢
  rw [hhead] at hclose ⊢
  cases ht : p.values.getLast? with
  | none => simp
  | some t =>
    cases hu : q.values.head? with
    | none => simp
    | some u =>
      rw [ht] at hp hopen
      rw [hu] at hq hclose
      have hmeet := hseam (hp.2.2 _ rfl) (hopen _ rfl) (hq.2.1 _ rfl) (hclose _ rfl)
      simpa using hmeet

theorem roles_ne_nil_of_reads {encoding : Encoding} {pattern : List Char}
    (h : (Token.read encoding).Reads 0 pattern p.tokens) (hne : pattern ≠ []) : p.roles ≠ [] := by
  cases p with
  | nil =>
    rw [tokens] at h
    cases h
    exact absurd rfl hne
  | leaf t hleaf rest => simp
  | group o inner z rest => simp

/-- The automaton of a phrase, without looking at places. -/
theorem automaton_eq (p : Phrase) (stop : Nat) (options : Options) :
    p.automaton stop options =
      .ofStates ((p.outline.rewritten options).states (.top (p.outline.rewritten options).size) 0)
        (p.values.count .groupOpen) p.dead := by
  rw [automaton, countP_mark p.countP_items, Liveness.neverMatches_body]

end Phrase

/-! ## Putting patterns together -/

section

variable {encoding : Encoding} {p q : List Char} {options : Options} {a b : Automaton}

/-- **The automaton of two patterns with a bar between them.** The states before the
bar fall back to those behind it, and the pattern can be seen never to match if
neither of the two does. -/
theorem compile_bar (hcollapses : options.collapses = false) (hp : p ≠ []) (hq : q ≠ [])
    (ha : compile encoding p options = .ok a) (hb : compile encoding q options = .ok b) :
    compile encoding (p ++ '|' :: q) options = .ok
      { states := a.inner.map (State.relink (.beforeBar a.accept b.accept)) ++
          b.inner.map (State.relink (.shift a.accept)) ++ Automaton.sinks (a.accept + b.accept)
        groupCount := a.groupCount + b.groupCount
        neverMatches := a.neverMatches && b.neverMatches } := by
  obtain ⟨P, hP, (hPchecks : P.Checks), rfl⟩ := compile_eq_ok_iff.1 ha
  obtain ⟨Q, hQ, (hQchecks : Q.Checks), rfl⟩ := compile_eq_ok_iff.1 hb
  refine compile_eq_ok_iff.2 ⟨P.append (Q.branch.shift p.length), Phrase.reads_append hP (Phrase.reads_branch hQ),
    hPchecks.append_branch hQchecks (Phrase.roles_ne_nil_of_reads hP hp)
      (Phrase.roles_ne_nil_of_reads hQ hq) p.length, ?_⟩
  have hPsound := Outline.sound_rewritten options (Phrase.sound_outline_of_check hPchecks)
  have hQsound := Outline.sound_rewritten options (Phrase.sound_outline_of_check hQchecks)
  simp only [Phrase.automaton_eq, Phrase.outline_append, Phrase.outline_shift, Phrase.outline_branch,
    Outline.rewritten_append_bar hcollapses, Phrase.dead_append_branch, Phrase.values_append,
    Phrase.values_shift, Phrase.values_branch, List.count_append, Automaton.inner_ofStates,
    Automaton.accept_ofStates, Outline.length_states]
  exact (Outline.ofStates_append (t := .bar _) hPsound hQsound rfl rfl rfl (fun h => by cases h)
    Relinking.carries_beforeBar _ _).symm

theorem compile_bar_of_alternation :
    ∃ a b, compile .unicode ['a', '|', '^', 'b'] { collapse := some false } = .ok a ∧
      compile .unicode ['(', 'c', ')', '*'] { collapse := some false } = .ok b ∧
      compile .unicode ['a', '|', '^', 'b', '|', '(', 'c', ')', '*'] { collapse := some false } = .ok
        { states := a.inner.map (State.relink (.beforeBar a.accept b.accept)) ++
            b.inner.map (State.relink (.shift a.accept)) ++ Automaton.sinks (a.accept + b.accept)
          groupCount := a.groupCount + b.groupCount
          neverMatches := a.neverMatches && b.neverMatches } := by
  refine ⟨_, _, rfl, rfl, ?_⟩
  exact @compile_bar .unicode ['a', '|', '^', 'b'] ['(', 'c', ')', '*'] { collapse := some false } _ _ rfl
    (by simp) (by simp) rfl rfl

/-- A pattern has an automaton only if its tokens pass the check. -/
theorem checks_of_compile {R : Phrase} (hR : (Token.read encoding).Reads 0 p R.tokens)
    (ha : compile encoding p options = .ok a) : R.Checks := by
  obtain ⟨P, hP, hchecks, -⟩ := compile_eq_ok_iff.1 ha
  have htokens : P.values = R.values := by rw [← Token.listing_of_reads hP, Token.listing_of_reads hR]
  rw [Phrase.Checks, Phrase.roles, ← htokens]
  exact hchecks

/-- **The automaton of two patterns without bars one after the other.** They make no
pattern if an end anchor has something else after it, and the pattern can be seen
never to match if one of the two does or a start anchor has an atom before it that
has to match. -/
theorem compile_append (hcoalesces : options.coalesces = false)
    (hp : Token.hasTopBar 0 (Token.listing encoding p) = false)
    (hq : Token.hasTopBar 0 (Token.listing encoding q) = false)
    (ha : compile encoding p options = .ok a) (hb : compile encoding q options = .ok b) :
    if (Token.listing encoding p).getLast? = some .anchorEnd ∧
        ∃ t, (Token.listing encoding q).head? = some t ∧ t ≠ .anchorEnd then
      ∃ e, compile encoding (p ++ q) options = .error e
    else
      compile encoding (p ++ q) options = .ok
        { states := a.inner.map (State.relink (.beforeNext a.accept b.accept)) ++
            b.inner.map (State.relink (.shift a.accept)) ++ Automaton.sinks (a.accept + b.accept)
          groupCount := a.groupCount + b.groupCount
          neverMatches := a.neverMatches || b.neverMatches ||
            ((Token.listing encoding q).head? == some .anchorStart &&
              Token.endsRequired (Token.listing encoding p)) } := by
  obtain ⟨P, hP, (hPchecks : P.Checks), rfl⟩ := compile_eq_ok_iff.1 ha
  obtain ⟨Q, hQ, (hQchecks : Q.Checks), rfl⟩ := compile_eq_ok_iff.1 hb
  have hreads := Phrase.reads_append hP hQ
  rw [Token.listing_of_reads hP, Phrase.barred_of_hasTopBar] at hp
  rw [Token.listing_of_reads hQ, Phrase.barred_of_hasTopBar] at hq
  rw [Token.listing_of_reads hP, Token.listing_of_reads hQ]
  split
  · next hclash =>
    cases hcompile : compile encoding (p ++ q) options with
    | error e => exact ⟨e, rfl⟩
    | ok c =>
      have hchecks := checks_of_compile hreads hcompile
      exact absurd hclash ((hPchecks.append_iff_values hQchecks p.length).1 hchecks)
  · next hmeet =>
    refine compile_eq_ok_iff.2 ⟨P.append (Q.shift p.length), hreads,
      (hPchecks.append_iff_values hQchecks p.length).2 hmeet, ?_⟩
    have hPsound := Outline.sound_rewritten options (Phrase.sound_outline_of_check hPchecks)
    have hQsound := Outline.sound_rewritten options (Phrase.sound_outline_of_check hQchecks)
    have hPbarred : P.outline.barred = false := (Phrase.barred_outline P).trans hp
    have hQbarred : Q.outline.barred = false := (Phrase.barred_outline Q).trans hq
    simp only [Phrase.automaton_eq, Phrase.outline_append, Phrase.outline_shift,
      Outline.rewritten_append hcoalesces hPbarred hQbarred,
      Phrase.dead_append hp hq hQchecks.head?_ne_quantifier, Phrase.values_append, Phrase.values_shift,
      List.count_append, Automaton.inner_ofStates, Automaton.accept_ofStates, Outline.length_states]
    have hquantifier : (Q.outline.rewritten options).quantifier? = none :=
      (Outline.quantifier?_rewritten hQbarred).trans hQchecks.quantifier?_outline
    have hfollows (c : Setting) (hc : c.member = false) :
        (Q.outline.rewritten options).Follows (P.outline.rewritten options) c :=
      fun _ => ⟨Outline.barred_rewritten_of_not_barred hPbarred, hc⟩
    exact (Outline.ofStates_append hPsound hQsound rfl rfl hquantifier (hfollows _ rfl)
      (Relinking.carries_of_not_barred (Outline.barred_rewritten_of_not_barred hQbarred)) _ _).symm

theorem compile_append_after_group :
    ∃ a b, compile .unicode ['(', 'a', '|', 'b', ')', 'c', '+'] { coalesce := some false } = .ok a ∧
      compile .unicode ['^', 'd'] { coalesce := some false } = .ok b ∧
      if (Token.listing .unicode ['(', 'a', '|', 'b', ')', 'c', '+']).getLast? = some .anchorEnd ∧
          ∃ t, (Token.listing .unicode ['^', 'd']).head? = some t ∧ t ≠ .anchorEnd then
        ∃ e, compile .unicode ['(', 'a', '|', 'b', ')', 'c', '+', '^', 'd'] { coalesce := some false } = .error e
      else
        compile .unicode ['(', 'a', '|', 'b', ')', 'c', '+', '^', 'd'] { coalesce := some false } = .ok
          { states := a.inner.map (State.relink (.beforeNext a.accept b.accept)) ++
              b.inner.map (State.relink (.shift a.accept)) ++ Automaton.sinks (a.accept + b.accept)
            groupCount := a.groupCount + b.groupCount
            neverMatches := a.neverMatches || b.neverMatches ||
              ((Token.listing .unicode ['^', 'd']).head? == some .anchorStart &&
                Token.endsRequired (Token.listing .unicode ['(', 'a', '|', 'b', ')', 'c', '+'])) } := by
  refine ⟨_, _, rfl, rfl, ?_⟩
  exact @compile_append .unicode ['(', 'a', '|', 'b', ')', 'c', '+'] ['^', 'd'] { coalesce := some false } _ _
    rfl rfl rfl rfl rfl

end

end RegexAutomaton
