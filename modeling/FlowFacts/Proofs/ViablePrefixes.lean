import Mathlib
import FlowFacts.Proofs.Lexing

/-!
# Where readers stop

`Settles` says that a reader needs to look no further than the token after those that it takes. Where it fails,
some phrase begins with what it has taken (`Begins`), and no phrase goes on with the next token, whatever comes
after that. This holds of every reader, one lemma for each, and of `program` unless a name is declared again
(`program_cases`), which is found out one token too late (`program_of_redeclares`).
-/

namespace FlowFacts

namespace Parser

variable {α β : Type} {S : α → List Token → Prop} {T : α → β → List Token → Prop} {U : β → List Token → Prop}
  {ts : List Placed}

/-- Some phrase begins with these tokens, and goes on with tokens that a text can have. -/
def Begins (S : α → List Token → Prop) (ts : List Token) : Prop :=
  ∃ a us, (∀ t ∈ us, t.Proper) ∧ S a (ts ++ us)

/-- A reader takes some tokens and stops before the rest, and would do the same with whatever begins with these
and the next token. What it has taken is a phrase, or a phrase begins with it. -/
inductive Settles (p : Parser α) (S : α → List Token → Prop) (ts : List Placed) : Prop where
  | reads (front rest : List Placed) (a : α) (hts : ts = front ++ rest) (hspelled : S a (bare front))
    (h : ∀ rest', rest'.head? = rest.head? → p (front ++ rest') = .ok (a, rest'))
  | fails (front rest : List Placed) (issue : Issue) (hts : ts = front ++ rest) (hbegins : Begins S (bare front))
    (h : ∀ rest', rest'.head? = rest.head? → p (front ++ rest') = .error ⟨issue, rest'⟩)

/-! ## Putting readers together -/

theorem head?_append_congr {front rest rest' : List Placed} (h : rest'.head? = rest.head?) :
    (front ++ rest').head? = (front ++ rest).head? := by
  rw [List.head?_append, List.head?_append, h]

theorem forall_head_nil {P : List Placed → Prop} (h : P []) : ∀ ts, ts.head? = ([] : List Placed).head? → P ts := by
  intro ts hts
  obtain rfl := List.head?_eq_none_iff.1 hts
  exact h

theorem forall_head_cons {P : List Placed → Prop} {q : Placed} {rest : List Placed} (h : ∀ rest', P (q :: rest')) :
    ∀ ts, ts.head? = (q :: rest).head? → P ts := by
  intro ts hts
  obtain ⟨rest', rfl⟩ := List.head?_eq_some_iff.1 hts
  exact h rest'

theorem Begins.imp {S' : α → List Token → Prop} {ts us : List Token} (hS : ∀ a vs, S a (ts ++ vs) → S' a (us ++ vs))
    (h : Begins S ts) : Begins S' us := by
  obtain ⟨a, vs, hproper, hvs⟩ := h
  exact ⟨a, vs, hproper, hS a vs hvs⟩

theorem Begins.of_append (ts : List Token) {us : List Token} (hus : ∀ t ∈ us, t.Proper)
    (h : Begins S (ts ++ us)) : Begins S ts := by
  obtain ⟨a, vs, hvs, hspelled⟩ := h
  refine ⟨a, us ++ vs, List.forall_mem_append.2 ⟨hus, hvs⟩, ?_⟩
  rwa [← List.append_assoc]

namespace Settles

/-- The first token decides which reader goes on. -/
theorem congr {p p' : Parser α} (h : Settles p' S ts) (hp : ∀ ts', ts'.head? = ts.head? → p ts' = p' ts') :
    Settles p S ts := by
  cases h with
  | reads front rest a hts hspelled h =>
    refine .reads front rest a hts hspelled fun rest' hrest => ?_
    rw [hp _ (by rw [hts]; exact head?_append_congr hrest)]
    exact h rest' hrest
  | fails front rest issue hts hbegins h =>
    refine .fails front rest issue hts hbegins fun rest' hrest => ?_
    rw [hp _ (by rw [hts]; exact head?_append_congr hrest)]
    exact h rest' hrest

theorem stay {p : Parser α} {a : α} (ha : S a []) (h : ∀ ts', ts'.head? = ts.head? → p ts' = .ok (a, ts')) :
    Settles p S ts :=
  .reads [] ts a rfl ha h

theorem refuse {p : Parser α} {w : Wanted} (hS : Begins S [])
    (h : ∀ ts', ts'.head? = ts.head? → p ts' = .error (.wanted w ts')) : Settles p S ts := by
  refine .fails [] ts (.expected w (ts.head?.map Placed.token)) rfl hS fun ts' hts => ?_
  rw [List.nil_append, h ts' hts, Failure.wanted, hts]

theorem take {p : Parser α} {q : Placed} {rest : List Placed} {a : α} (ha : S a [q.token])
    (h : ∀ rest', p (q :: rest') = .ok (a, rest')) : Settles p S (q :: rest) :=
  .reads [q] rest a rfl ha fun rest' _ => h rest'

/-- One token, and then another reader. -/
theorem step {p k : Parser α} {q : Placed} {rest : List Placed} (hk : Settles k (fun a us => S a (q.token :: us)) rest)
    (h : ∀ rest', p (q :: rest') = k rest') : Settles p S (q :: rest) := by
  cases hk with
  | reads front rest a hts hspelled hk =>
    refine .reads (q :: front) rest a (by rw [hts]; rfl) hspelled fun rest' hrest => ?_
    rw [List.cons_append, h, hk rest' hrest]
  | fails front rest issue hts hbegins hk =>
    refine .fails (q :: front) rest issue (by rw [hts]; rfl) hbegins fun rest' hrest => ?_
    rw [List.cons_append, h, hk rest' hrest]

/-- A reader, and then another one. -/
theorem bind {p : Parser α} {k : α → Parser β} (hU : ∀ a b us vs, S a us → T a b vs → U b (us ++ vs))
    (hT : ∀ a, Begins (T a) []) (hp : Settles p S ts)
    (hk : ∀ a rest, p ts = .ok (a, rest) → Settles (k a) (T a) rest) :
    Settles (fun ts => p ts >>= fun x => k x.1 x.2) U ts := by
  cases hp with
  | fails front rest issue hts hbegins hp =>
    refine .fails front rest issue hts ?_ fun rest' hrest => ?_
    · obtain ⟨a, us, hus, hspelled⟩ := hbegins
      obtain ⟨b, vs, hvs, hnext⟩ := hT a
      refine ⟨b, us ++ vs, List.forall_mem_append.2 ⟨hus, hvs⟩, ?_⟩
      rw [← List.append_assoc]
      exact hU a b _ _ hspelled hnext
    · rw [hp rest' hrest]
      rfl
  | reads front rest a hts hspelled hp =>
    subst hts
    -- The next token of the first reader is the first one of the second, or the one after it.
    cases hk a rest (hp rest rfl) with
    | reads front' rest b hts hnext hread =>
      subst hts
      refine .reads (front ++ front') rest b (List.append_assoc _ _ _).symm ?_ fun rest' hrest => ?_
      · rw [bare_append]
        exact hU a b _ _ hspelled hnext
      · rw [List.append_assoc, hp _ (head?_append_congr hrest)]
        exact hread rest' hrest
    | fails front' rest issue hts hbegins hread =>
      subst hts
      refine .fails (front ++ front') rest issue (List.append_assoc _ _ _).symm ?_ fun rest' hrest => ?_
      · obtain ⟨b, vs, hvs, hnext⟩ := hbegins
        refine ⟨b, vs, hvs, ?_⟩
        rw [bare_append, List.append_assoc]
        exact hU a b _ _ hspelled hnext
      · rw [List.append_assoc, hp _ (head?_append_congr hrest)]
        exact hread rest' hrest

theorem map {p : Parser α} {f : α → β} (hU : ∀ a us, S a us → U (f a) us) (hp : Settles p S ts) :
    Settles (fun ts => p ts >>= fun x => .ok (f x.1, x.2)) U ts := by
  refine bind (T := fun a b us => b = f a ∧ us = []) ?_ (fun a => ⟨f a, [], by simp, rfl, rfl⟩) hp
    fun a rest _ => stay ⟨rfl, rfl⟩ fun _ _ => rfl
  rintro a b us vs hus ⟨rfl, rfl⟩
  rw [List.append_nil]
  exact hU a us hus

theorem imp {p : Parser α} {S' : α → List Token → Prop} (hS : ∀ a us, S a us → S' a us) (hp : Settles p S ts) :
    Settles p S' ts := by
  cases hp with
  | reads front rest a hts hspelled h => exact .reads front rest a hts (hS _ _ hspelled) h
  | fails front rest issue hts hbegins h => exact .fails front rest issue hts (hbegins.imp fun a us => hS a _) h

/-- A given token, and then a reader. -/
theorem expect {t : Token} {k : Parser α} (ht : t.Proper) (hS : Begins S [t])
    (hk : ∀ rest, Settles k (fun a us => S a (t :: us)) rest) : Settles (fun ts => Parser.expect t ts >>= k) S ts := by
  have hbegins : Begins S [] := hS.of_append [] (List.forall_mem_singleton.2 ht)
  cases ts with
  | nil => exact refuse hbegins (forall_head_nil rfl)
  | cons q rest =>
    by_cases hq : q.token = t
    · refine step (hq ▸ hk rest) fun rest' => ?_
      simp only [Parser.expect, if_pos hq, Bind.bind, Except.bind]
    · refine refuse (w := .token t) hbegins (forall_head_cons fun rest' => ?_)
      simp only [Parser.expect, if_neg hq, Bind.bind, Except.bind]

end Settles

/-! ## Values and conditions -/

theorem begins_ident : Begins (fun x us => us = [Token.ident x]) [] :=
  ⟨"x", [.ident "x"], List.forall_mem_singleton.2 (show IsName "x" by decide), rfl⟩

theorem begins_label : Begins (fun n us => us = [Token.label n]) [] :=
  ⟨0, [.label 0], List.forall_mem_singleton.2 (show 0 < UInt64.size by decide), rfl⟩

theorem begins_number : Begins (fun n us => us = [Token.number n]) [] :=
  ⟨0, [.number 0], List.forall_mem_singleton.2 trivial, rfl⟩

theorem begins_value : Begins Value.Spelled [] :=
  ⟨.unknown, [.question], List.forall_mem_singleton.2 trivial, .unknown⟩

theorem begins_condition : Begins Condition.Spelled [] :=
  ⟨.always, [.always], List.forall_mem_singleton.2 trivial, .always⟩

theorem ident_settles (ts : List Placed) : Settles ident (fun x us => us = [.ident x]) ts := by
  rcases ts with _ | ⟨⟨t, line⟩, rest⟩
  · exact .refuse begins_ident (forall_head_nil rfl)
  cases t with
  | ident x => exact .take rfl fun _ => rfl
  | _ => exact .refuse begins_ident (forall_head_cons fun _ => rfl)

theorem label_settles (ts : List Placed) : Settles label (fun n us => us = [.label n]) ts := by
  rcases ts with _ | ⟨⟨t, line⟩, rest⟩
  · exact .refuse begins_label (forall_head_nil rfl)
  cases t with
  | label n => exact .take rfl fun _ => rfl
  | _ => exact .refuse begins_label (forall_head_cons fun _ => rfl)

theorem number_settles (ts : List Placed) : Settles number (fun n us => us = [.number n]) ts := by
  rcases ts with _ | ⟨⟨t, line⟩, rest⟩
  · exact .refuse begins_number (forall_head_nil rfl)
  cases t with
  | number n => exact .take rfl fun _ => rfl
  | _ => exact .refuse begins_number (forall_head_cons fun _ => rfl)

theorem value_settles (ts : List Placed) : Settles value Value.Spelled ts := by
  rcases ts with _ | ⟨⟨t, line⟩, rest⟩
  · exact .refuse begins_value (forall_head_nil rfl)
  cases t with
  | question => exact .take .unknown fun _ => rfl
  | number n => exact .take (.const n) fun _ => rfl
  | minus =>
    refine .step ((number_settles rest).map (f := fun n => .const (-n)) ?_) fun _ => rfl
    rintro n _ rfl
    exact .negative n
  | ident u =>
    -- The next token says whether an offset follows.
    refine .step (k := fun ts => value (⟨.ident u, line⟩ :: ts)) ?_ fun _ => rfl
    rcases rest with _ | ⟨⟨t, line'⟩, rest⟩
    · exact .stay (.var u) (forall_head_nil rfl)
    cases t with
    | plus =>
      refine .step ((number_settles rest).map (f := fun n => .plus u n) ?_) fun _ => rfl
      rintro n _ rfl
      exact .plus u n
    | minus =>
      refine .step ((number_settles rest).map (f := fun n => .minus u n) ?_) fun _ => rfl
      rintro n _ rfl
      exact .minus u n
    | _ => exact .stay (.var u) (forall_head_cons fun _ => rfl)
  | _ => exact .refuse begins_value (forall_head_cons fun _ => rfl)

theorem comparison_settles (x : String) (ts : List Placed) :
    Settles (comparison x) (fun c us => c.Spelled (.ident x :: us)) ts := by
  have hbegins : Begins (fun (c : Condition) us => c.Spelled (.ident x :: us)) [] :=
    ⟨_, [.equals, .question], by simp [Token.Proper], .equal x .unknown⟩
  rcases ts with _ | ⟨⟨t, line⟩, rest⟩
  · exact .refuse hbegins (forall_head_nil rfl)
  cases t with
  | equals => exact .step ((value_settles rest).map (f := .equal x) fun v us h => .equal x h) fun _ => rfl
  | differs => exact .step ((value_settles rest).map (f := .unequal x) fun v us h => .unequal x h) fun _ => rfl
  | _ => exact .refuse hbegins (forall_head_cons fun _ => rfl)

theorem condition_settles (ts : List Placed) : Settles condition Condition.Spelled ts := by
  rcases ts with _ | ⟨⟨t, line⟩, rest⟩
  · exact .refuse begins_condition (forall_head_nil rfl)
  cases t with
  | always => exact .take .always fun _ => rfl
  | never => exact .take .never fun _ => rfl
  | ident x => exact .step (comparison_settles x rest) fun _ => rfl
  | _ => exact .refuse begins_condition (forall_head_cons fun _ => rfl)

theorem close_settles (c : Condition) (ts : List Placed) :
    Settles (fun ts => expect .rightParen ts >>= fun rest => .ok (c, rest))
      (fun c' us => c' = c ∧ us = [.rightParen]) ts :=
  .expect trivial ⟨c, [], by simp⟩ fun _ => .stay ⟨rfl, rfl⟩ fun _ _ => rfl

theorem assumption_settles (ts : List Placed) :
    Settles assumption (fun c us => (Statement.assume c).Spelled (.assume :: us)) ts := by
  have hplain := (condition_settles ts).imp fun c us h => Statement.Spelled.assume h
  rcases ts with _ | ⟨⟨t, line⟩, rest⟩
  · exact hplain.congr (forall_head_nil rfl)
  cases t with
  | leftParen =>
    refine .step (.bind ?_ ?_ (condition_settles rest) fun c rest _ => close_settles c rest) fun _ => rfl
    · rintro c _ us _ hus ⟨rfl, rfl⟩
      exact .assumeParen hus
    · exact fun c => ⟨c, [.rightParen], List.forall_mem_singleton.2 trivial, rfl, rfl⟩
  | _ => exact hplain.congr (forall_head_cons fun _ => rfl)

/-! ## Atoms and clauses -/

theorem begins_nameList : Begins (fun xs us => xs ≠ [] ∧ us = xs.map Token.ident) [] :=
  ⟨["x"], [.ident "x"], List.forall_mem_singleton.2 (show IsName "x" by decide), by simp⟩

theorem begins_atom : Begins Atom.Spelled [] := by
  obtain ⟨x, us, hus, rfl⟩ := begins_ident
  exact ⟨.even x, [.even, .ident x], List.forall_mem_cons.2 ⟨trivial, hus⟩, .even x⟩

theorem names_settles (ts : List Placed) : Settles (fun ts => .ok (names ts)) (fun xs us => us = xs.map .ident) ts := by
  induction ts with
  | nil => exact .stay rfl (forall_head_nil rfl)
  | cons q rest ih =>
    obtain ⟨t, line⟩ := q
    cases t with
    | ident x =>
      refine .step (ih.map (f := (x :: ·)) ?_) fun _ => rfl
      rintro xs _ rfl
      rfl
    | _ => exact .stay rfl (forall_head_cons fun _ => rfl)

theorem nameList_settles (ts : List Placed) : Settles nameList (fun xs us => xs ≠ [] ∧ us = xs.map .ident) ts := by
  rcases ts with _ | ⟨⟨t, line⟩, rest⟩
  · exact .refuse begins_nameList (forall_head_nil rfl)
  cases t with
  | ident x =>
    refine .step ((names_settles rest).map (f := (x :: ·)) ?_) fun _ => rfl
    rintro xs _ rfl
    exact ⟨List.cons_ne_nil _ _, rfl⟩
  | _ => exact .refuse begins_nameList (forall_head_cons fun _ => rfl)

/-- What an equation between sums goes on with after its left side. -/
def RightSide (left : List String) (a : Atom) (us : List Token) : Prop :=
  ∃ right, right ≠ [] ∧ a = .sum left right ∧ us = .equals :: .sum :: right.map .ident

theorem begins_rightSide (left : List String) : Begins (RightSide left) [.equals, .sum] := by
  obtain ⟨right, us, hus, hne, hright⟩ := begins_nameList
  exact ⟨.sum left right, us, hus, right, hne, rfl, congrArg (Token.equals :: Token.sum :: ·) hright⟩

theorem rightSide_settles (left : List String) (ts : List Placed) :
    Settles (fun ts => expect .equals ts >>= fun rest => expect .sum rest >>= fun rest =>
      nameList rest >>= fun x => .ok (.sum left x.1, x.2)) (RightSide left) ts := by
  have hequals : Begins (RightSide left) [.equals] :=
    (begins_rightSide left).of_append [.equals] (by simp [Token.Proper])
  refine .expect trivial hequals fun rest => .expect trivial (begins_rightSide left) fun rest => ?_
  refine (nameList_settles rest).map ?_
  rintro right _ ⟨hne, rfl⟩
  exact ⟨right, hne, rfl, rfl⟩

theorem atom_settles (ts : List Placed) : Settles atom Atom.Spelled ts := by
  rcases ts with _ | ⟨⟨t, line⟩, rest⟩
  · exact .refuse begins_atom (forall_head_nil rfl)
  cases t with
  | even =>
    refine .step ((ident_settles rest).map (f := .even) ?_) fun _ => rfl
    rintro x _ rfl
    exact .even x
  | odd =>
    refine .step ((ident_settles rest).map (f := .odd) ?_) fun _ => rfl
    rintro x _ rfl
    exact .odd x
  | sum =>
    refine .step (.bind ?_ ?_ (nameList_settles rest) fun left rest _ => rightSide_settles left rest) fun _ => rfl
    · rintro left _ _ _ ⟨hleft, rfl⟩ ⟨right, hright, rfl, rfl⟩
      exact .sum hleft hright
    · intro left
      exact (begins_rightSide left).of_append [] (by simp [Token.Proper])
  | _ => exact .refuse begins_atom (forall_head_cons fun _ => rfl)

theorem atoms_eq_bind {ts : List Placed} (h : ∀ q ∈ ts.head?, q.token ≠ .rightParen) :
    atoms ts = atom ts >>= fun x => atoms x.2 >>= fun y => .ok (x.1 :: y.1, y.2) := by
  rw [atoms.eq_def]
  split
  · exact absurd rfl (h _ rfl)
  · split
    · next hatom => rw [hatom]; rfl
    · next a rest hatom =>
      dsimp only
      rw [hatom]
      show _ = atoms rest >>= fun y => .ok (a :: y.1, y.2)
      cases atoms rest <;> rfl

/-- Atoms up to a closing parenthesis, and that as well. -/
def ToClose (as : List Atom) (ts : List Token) : Prop := ∃ us, Sequence Atom.Spelled as us ∧ ts = us ++ [.rightParen]

theorem begins_toClose : Begins ToClose [] :=
  ⟨[], [.rightParen], List.forall_mem_singleton.2 trivial, [], .nil, rfl⟩

theorem ToClose.cons {a : Atom} {as : List Atom} {us vs : List Token} (ha : a.Spelled us) (has : ToClose as vs) :
    ToClose (a :: as) (us ++ vs) := by
  obtain ⟨ws, hseq, rfl⟩ := has
  exact ⟨us ++ ws, .cons ha hseq, (List.append_assoc _ _ _).symm⟩

/-- A loop reads one phrase more and then what is left. -/
theorem Settles.cons {p : Parser α} {ps : Parser (List α)} {R : List α → List Token → Prop} (hR : Begins R [])
    (hcons : ∀ a as us vs, S a us → R as vs → R (a :: as) (us ++ vs)) (hp : Settles p S ts)
    (hps : ∀ a rest, p ts = .ok (a, rest) → Settles ps R rest) :
    Settles (fun ts => p ts >>= fun x => ps x.2 >>= fun y => .ok (x.1 :: y.1, y.2)) R ts := by
  refine .bind (T := fun a as us => ∃ as', as = a :: as' ∧ R as' us) ?_ ?_ hp fun a rest h =>
    (hps a rest h).map fun as us has => ⟨as, rfl, has⟩
  · rintro a _ us vs ha ⟨as, rfl, has⟩
    exact hcons a as us vs ha has
  · intro a
    obtain ⟨as, us, hus, has⟩ := hR
    exact ⟨a :: as, us, hus, as, rfl, has⟩

theorem atoms_settles (ts : List Placed) : Settles atoms ToClose ts := by
  induction hn : ts.length using Nat.strongRecOn generalizing ts with
  | ind n ih =>
    have hloop := (atom_settles ts).cons begins_toClose (fun a as us vs ha has => ToClose.cons ha has)
      fun a rest h => ih rest.length (hn ▸ atom_advances h) rest rfl
    rcases ts with _ | ⟨⟨t, line⟩, rest⟩
    · exact hloop.congr (forall_head_nil (atoms_eq_bind (by simp)))
    cases t with
    | rightParen => exact .take ⟨[], .nil, rfl⟩ fun _ => atoms_ok_nil.2 ⟨line, rfl⟩
    | _ => exact hloop.congr (forall_head_cons fun _ => atoms_eq_bind (by simp))

theorem begins_clause : Begins Clause.Spelled [] := by
  obtain ⟨a, us, hus, ha⟩ := begins_atom
  refine ⟨[a], .leftParen :: (us ++ [.rightParen]), ?_, List.cons_ne_nil _ _, us, ?_, rfl⟩
  · simpa [Token.Proper, or_imp, forall_and] using hus
  · simpa using Sequence.cons ha .nil

theorem clause_settles (ts : List Placed) : Settles clause Clause.Spelled ts := by
  rcases ts with _ | ⟨⟨t, line⟩, rest⟩
  · exact .refuse begins_clause (forall_head_nil rfl)
  cases t with
  | leftParen =>
    refine .step (.bind (T := fun a c us => ∃ as, c = a :: as ∧ ToClose as us) ?_ ?_ (atom_settles rest)
      fun a rest _ => (atoms_settles rest).map (f := (a :: ·)) fun as us has => ⟨as, rfl, has⟩) fun _ => rfl
    · rintro a _ us vs ha ⟨as, rfl, has⟩
      obtain ⟨ws, hseq, heq⟩ := ToClose.cons ha has
      exact ⟨List.cons_ne_nil _ _, ws, hseq, congrArg (Token.leftParen :: ·) heq⟩
    · intro a
      obtain ⟨as, us, hus, has⟩ := begins_toClose
      exact ⟨a :: as, us, hus, as, rfl, has⟩
  | _ => exact .refuse begins_clause (forall_head_cons fun _ => rfl)

theorem clauses_eq_bind (line : Nat) (rest : List Placed) : clauses (⟨.leftParen, line⟩ :: rest) =
    clause (⟨.leftParen, line⟩ :: rest) >>= fun x => clauses x.2 >>= fun y => .ok (x.1 :: y.1, y.2) := by
  rw [clauses.eq_def]
  dsimp only
  split
  · next hclause => rw [hclause]; rfl
  · next c rest' hclause =>
    rw [hclause]
    show _ = clauses rest' >>= fun y => .ok (c :: y.1, y.2)
    cases clauses rest' <;> rfl

theorem clauses_settles (ts : List Placed) : Settles clauses (Sequence Clause.Spelled) ts := by
  induction hn : ts.length using Nat.strongRecOn generalizing ts with
  | ind n ih =>
    rcases ts with _ | ⟨⟨t, line⟩, rest⟩
    · exact .stay .nil (forall_head_nil (clauses_ok_nil.2 ⟨rfl, by simp⟩))
    cases t with
    | leftParen =>
      have hloop := (clause_settles (⟨.leftParen, line⟩ :: rest)).cons ⟨[], [], by simp, .nil⟩
        (fun c cs us vs hc hcs => Sequence.cons hc hcs)
        fun c rest h => ih rest.length (hn ▸ clause_advances h) rest rfl
      exact hloop.congr (forall_head_cons fun _ => clauses_eq_bind line _)
    | _ => exact .stay .nil (forall_head_cons fun _ => clauses_ok_nil.2 ⟨rfl, by simp [NotParen]⟩)

/-! ## Statements and edges -/

theorem begins_statement : Begins Statement.Spelled [] :=
  ⟨.skip, [.skip], List.forall_mem_singleton.2 trivial, .skip⟩

theorem statement_settles (ts : List Placed) : Settles statement Statement.Spelled ts := by
  rcases ts with _ | ⟨⟨t, line⟩, rest⟩
  · exact .refuse begins_statement (forall_head_nil rfl)
  cases t with
  | skip => exact .take .skip fun _ => rfl
  | ident x =>
    refine .step (.expect (t := .assign) trivial ?_ fun rest =>
      (value_settles rest).map (f := Statement.assign x) fun v us h => Statement.Spelled.assign x h) fun _ => rfl
    exact ⟨.assign x .unknown, [.question], List.forall_mem_singleton.2 trivial, .assign x .unknown⟩
  | assume => exact .step ((assumption_settles rest).map (f := .assume) fun c us h => h) fun _ => rfl
  | assert =>
    refine .step (.bind (T := fun c s us => ∃ cs, s = .assert ⟨c :: cs⟩ ∧ Sequence Clause.Spelled cs us) ?_ ?_
      (clause_settles rest) fun c rest _ => (clauses_settles rest).map (f := fun cs => Statement.assert ⟨c :: cs⟩)
        fun cs us h => ⟨cs, rfl, h⟩) fun _ => rfl
    · rintro c _ us vs hc ⟨cs, rfl, hcs⟩
      exact .assert (List.cons_ne_nil _ _) (.cons hc hcs)
    · exact fun c => ⟨.assert ⟨[c]⟩, [], by simp, [], rfl, .nil⟩
  | _ => exact .refuse begins_statement (forall_head_cons fun _ => rfl)

/-- What an edge goes on with after its first label. -/
def Leaving (source : Nat) (e : Edge) (us : List Token) : Prop := e.source = source ∧ e.Spelled (.label source :: us)

theorem begins_leaving (source : Nat) : Begins (Leaving source) [] := by
  obtain ⟨target, us, hus, rfl⟩ := begins_label
  refine ⟨⟨source, .skip, target⟩, [.skip, .label target], List.forall_mem_cons.2 ⟨trivial, hus⟩, rfl, ?_⟩
  exact ⟨[.skip], .skip, rfl⟩

theorem leaving_settles (source : Nat) (ts : List Placed) :
    Settles (fun ts => statement ts >>= fun x => label x.2 >>= fun y => .ok (⟨source, x.1, y.1⟩, y.2))
      (Leaving source) ts := by
  refine .bind (T := fun s e us => ∃ target, e = ⟨source, s, target⟩ ∧ us = [.label target]) ?_ ?_
    (statement_settles ts) fun s rest _ => (label_settles rest).map fun target us h => ⟨target, rfl, h⟩
  · rintro s _ us _ hs ⟨target, rfl, rfl⟩
    exact ⟨rfl, us, hs, rfl⟩
  · intro s
    obtain ⟨target, us, hus, htarget⟩ := begins_label
    exact ⟨⟨source, s, target⟩, us, hus, target, rfl, htarget⟩

theorem edge_settles (ts : List Placed) : Settles edge Edge.Spelled ts := by
  refine .bind (T := Leaving) ?_ begins_leaving (label_settles ts) fun source rest _ => leaving_settles source rest
  rintro source e _ vs rfl ⟨-, he⟩
  exact he

/-- A reader of all the tokens, as one that leaves none. -/
def whole (p : List Placed → Except Failure α) : Parser α := fun ts => (p ts).map (·, [])

theorem whole_eq_error {p : List Placed → Except Failure α} {f : Failure} :
    whole p ts = .error f ↔ p ts = .error f := by
  unfold whole
  cases p ts <;> simp [Except.map]

theorem whole_edges_eq_bind {ts : List Placed} (h : ts ≠ []) :
    whole edges ts = edge ts >>= fun x => whole edges x.2 >>= fun y => .ok (x.1 :: y.1, y.2) := by
  unfold whole
  rw [edges.eq_def, if_neg (by simpa using h)]
  split
  · next hedge => rw [hedge]; rfl
  · next e rest hedge =>
    dsimp only
    rw [hedge]
    show _ = (edges rest).map (·, []) >>= fun y => .ok (e :: y.1, y.2)
    cases edges rest <;> rfl

theorem edges_settles (ts : List Placed) : Settles (whole edges) (Sequence Edge.Spelled) ts := by
  induction hn : ts.length using Nat.strongRecOn generalizing ts with
  | ind n ih =>
    cases ts with
    | nil => exact .stay .nil (forall_head_nil (by unfold whole; rw [edges]; rfl))
    | cons q rest =>
      have hloop := (edge_settles (q :: rest)).cons ⟨[], [], by simp, .nil⟩
        (fun e es us vs he hes => Sequence.cons he hes) fun e rest h => ih rest.length (hn ▸ edge_advances h) rest rfl
      exact hloop.congr (forall_head_cons fun _ => whole_edges_eq_bind (List.cons_ne_nil _ _))

/-! ## Programs -/

/-- After different names and nothing else, one of them stands again. -/
def Redeclares (ts : List Token) (t : Token) : Prop :=
  ∃ (names : List String) (x : String), names.Nodup ∧ x ∈ names ∧ ts = names.map .ident ∧ t = .ident x

theorem declares_nil (seen : SortedSet String) : Declares seen seen [] := ⟨List.nodup_nil, by simp, by simp⟩

/-- The names that come first go on to something else, or to a name that has been declared. -/
theorem declarations_cases (seen : SortedSet String) (ts : List Placed) :
    ∃ d names front rest, ts = front ++ rest ∧ bare front = names.map .ident ∧ Declares seen d names ∧
      ((∀ q ∈ rest.head?, NotName q.token) ∨ ∃ x line tail, rest = ⟨.ident x, line⟩ :: tail ∧ x ∈ d.toList) := by
  induction ts generalizing seen with
  | nil => exact ⟨seen, [], [], [], rfl, rfl, declares_nil seen, .inl (by simp)⟩
  | cons q rest ih =>
    obtain ⟨t, line⟩ := q
    cases t with
    | ident x =>
      by_cases hx : x ∈ seen.toList
      · exact ⟨seen, [], [], _, rfl, rfl, declares_nil seen, .inr ⟨x, line, rest, rfl, hx⟩⟩
      · obtain ⟨d, names, front, rest, rfl, hfront, hdeclares, hrest⟩ := ih (seen.insert x)
        refine ⟨d, x :: names, ⟨.ident x, line⟩ :: front, rest, rfl, ?_, declares_cons.2 ⟨hx, hdeclares⟩, hrest⟩
        rw [bare_cons, hfront, List.map_cons]
    | _ => exact ⟨seen, [], [], _, rfl, rfl, declares_nil seen, .inl (by simp [NotName])⟩

theorem declarations_again {seen d : SortedSet String} {names : List String} (h : Declares seen d names)
    {front : List Placed} (hfront : bare front = names.map .ident) {x : String} (hx : x ∈ d.toList) (line : Nat)
    (rest : List Placed) :
    declarations seen (front ++ ⟨.ident x, line⟩ :: rest) = .error ⟨.declaredTwice x, rest⟩ := by
  induction names generalizing seen front with
  | nil =>
    obtain rfl := bare_eq_nil.1 hfront
    have hseen : x ∈ seen.toList := by simpa using (h.members x).1 hx
    rw [List.nil_append, declarations, if_pos (show x ∈ seen from hseen)]
  | cons y names ih =>
    obtain ⟨line', tail, rfl, htail⟩ := bare_eq_cons.1 hfront
    obtain ⟨hy, hdeclares⟩ := declares_cons.1 h
    rw [List.cons_append, declarations, if_neg (show y ∉ seen from hy)]
    exact ih hdeclares htail

/-- A name that is declared again is reported for what follows it. -/
theorem program_of_redeclares {front : List Placed} {q : Placed} (h : Redeclares (bare front) q.token) :
    ∃ x, ∀ rest, program (front ++ q :: rest) = .error ⟨.declaredTwice x, rest⟩ := by
  obtain ⟨t, line⟩ := q
  obtain ⟨names, x, hnodup, hx, hfront, rfl⟩ := h
  refine ⟨x, fun rest => ?_⟩
  have hdeclares := declares_empty.2 ⟨hnodup, rfl⟩
  have hagain := declarations_again hdeclares hfront (SortedSet.mem_ofList.2 hx) line rest
  simp only [program, hagain, bind, Except.bind]

theorem whole_program_eq_bind (ts : List Placed) : whole program ts =
    declarations .empty ts >>= fun x => whole edges x.2 >>= fun y => .ok (⟨x.1, y.1⟩, y.2) := by
  unfold whole program
  cases declarations .empty ts with
  | error f => rfl
  | ok x =>
    obtain ⟨declared, rest⟩ := x
    show (edges rest >>= fun es => .ok ⟨declared, es⟩).map (·, []) =
      (edges rest).map (·, []) >>= fun y => .ok (Program.mk declared y.1, y.2)
    cases edges rest <;> rfl

/-- Tokens are settled as a program, unless a name is declared again. -/
theorem program_cases (ts : List Placed) : Settles (whole program) Program.Spelled ts ∨
    ∃ front q rest, ts = front ++ q :: rest ∧ Redeclares (bare front) q.token := by
  obtain ⟨d, names, front, rest, rfl, hfront, hdeclares, hnext | ⟨x, line, tail, rfl, hx⟩⟩ :=
    declarations_cases .empty ts
  · obtain ⟨hnodup, rfl⟩ := declares_empty.1 hdeclares
    have hnames : Settles (declarations .empty)
        (fun d us => ∃ names, List.Nodup names ∧ d = .ofList names ∧ us = names.map .ident) (front ++ rest) :=
      .reads front rest _ rfl ⟨names, hnodup, rfl, hfront⟩ fun rest' hrest =>
        declarations_complete hdeclares hfront (by rwa [hrest])
    refine .inl (.congr ?_ fun ts _ => whole_program_eq_bind ts)
    refine .bind (T := fun d p us => p.declared = d ∧ Sequence Edge.Spelled p.edges us) ?_ ?_ hnames
      fun d rest _ => (edges_settles rest).map fun es us hes => ⟨rfl, hes⟩
    · rintro _ p _ vs ⟨names, hnodup, rfl, rfl⟩ ⟨hdeclared, hedges⟩
      exact ⟨names, vs, hnodup, hdeclared, hedges, rfl⟩
    · exact fun d => ⟨⟨d, []⟩, [], by simp, rfl, .nil⟩
  · obtain ⟨hnodup, rfl⟩ := declares_empty.1 hdeclares
    exact .inr ⟨front, _, tail, rfl, names, x, hnodup, SortedSet.mem_ofList.1 hx, hfront, rfl⟩

end Parser

end FlowFacts
