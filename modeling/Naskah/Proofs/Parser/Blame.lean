import Mathlib.Data.List.Count
import Mathlib.Data.List.Forall2
import Naskah.Proofs.Parser.Manner

/-!
# Which tokens errors name

An error names the token that a reader has come to. An account of a run lists
the tokens it has taken, each with what was expected in its place whenever an
error named it. Recovery takes the token of the error, so the next error is at
a later one; only closing braces and endings stay, and are come to again. A
closing brace then ends its block, or is reported and taken at the top level.
Each block that an ending leaves open names it once more.
-/

namespace Naskah

def blame (ts : List Token) (x : Expectation) : SyntaxError := .unexpectedToken (front ts) x

@[simp] theorem blame_cons (t : Token) (ts : List Token) : blame (t :: ts) = .unexpectedToken t :=
  rfl

/-! ## Accounts -/

abbrev Account := List (Token × List Expectation)

namespace Account

def tokens (ms : Account) : List Token := ms.map (·.1)

def named (ms : Account) : List SyntaxError := ms.flatMap fun m => m.2.map (.unexpectedToken m.1)

def opened (ms : Account) : Nat := (tokens ms).countP (·.isMark .leftBrace)

/-- No ending is taken, and none of the tokens is named too often. -/
def Calm (ms : Account) : Prop :=
  ∀ m ∈ ms, m.1.kind ≠ .ending ∧ m.2.length ≤ if m.1.isMark .rightBrace then 2 else 1

variable (ms ms' : Account) (t : Token) (xs : List Expectation)

@[simp] theorem tokens_nil : tokens [] = [] := rfl

@[simp] theorem tokens_cons : tokens ((t, xs) :: ms) = t :: tokens ms := rfl

@[simp] theorem tokens_append : tokens (ms ++ ms') = tokens ms ++ tokens ms' := List.map_append

@[simp] theorem named_nil : named [] = [] := rfl

@[simp] theorem named_cons : named ((t, xs) :: ms) = xs.map (.unexpectedToken t) ++ named ms := rfl

@[simp] theorem named_append : named (ms ++ ms') = named ms ++ named ms' := List.flatMap_append

@[simp] theorem opened_append : opened (ms ++ ms') = opened ms + opened ms' := by simp [opened]

theorem opened_cons_of_leftBrace {t : Token} (ht : t.kind = .mark .leftBrace) :
    opened ((t, xs) :: ms) = opened ms + 1 := by
  simp [opened, Token.isMark_iff.mpr ht]

@[simp] theorem calm_nil : Calm [] := by simp [Calm]

variable {ms ms' t xs}

theorem Calm.append (h : Calm ms) (h' : Calm ms') : Calm (ms ++ ms') :=
  List.forall_mem_append.mpr ⟨h, h'⟩

theorem calm_single (ht : t.kind ≠ .ending) (hxs : xs.length ≤ 1) : Calm [(t, xs)] := by
  simp only [Calm, List.mem_singleton, forall_eq]
  refine ⟨ht, ?_⟩
  split <;> omega

def unnamed (c : List Token) : Account := c.map (·, [])

@[simp] theorem tokens_unnamed (c : List Token) : tokens (unnamed c) = c := by
  simp [tokens, unnamed, Function.comp_def]

@[simp] theorem named_unnamed (c : List Token) : named (unnamed c) = [] := by simp [named, unnamed]

theorem calm_unnamed {c : List Token} (h : ∀ t ∈ c, t.kind ≠ .ending) : Calm (unnamed c) := by
  intro m hm
  obtain ⟨t, ht, rfl⟩ := List.mem_map.mp hm
  exact ⟨h t ht, Nat.zero_le _⟩

end Account

open Account

/-! ## Readers that stop at their first error -/

/-- The tokens taken are accounted for. An error is at the front of the rest;
only an ending can have been named before, by blocks that are open there. -/
inductive Parsed.Firm {α : Type} (ts : List Token) : Parsed α → Prop
  | ok {m r a} : ts = tokens m ++ r → Calm m → Firm ts ⟨.ok a, named m, r⟩
  | error {m r x last} : ts = tokens m ++ r → Calm m → x.length ≤ opened m →
      (x ≠ [] → (front r).kind = .ending) →
        Firm ts ⟨.error (blame r last), named m ++ x.map (blame r), r⟩

theorem Parsed.Firm.behind {α : Type} {ms : Account} {r : List Token}
    {result : Except SyntaxError α} {es : List SyntaxError} {r' : List Token} (hms : Calm ms)
    (h : Parsed.Firm r ⟨result, es, r'⟩) :
    Parsed.Firm (tokens ms ++ r) ⟨result, named ms ++ es, r'⟩ := by
  cases h with
  | @ok ms' _ _ hr hms' =>
    rw [hr, ← List.append_assoc, ← tokens_append, ← named_append]
    exact .ok rfl (hms.append hms')
  | @error ms' _ xs _ hr hms' hlen hend =>
    rw [hr, ← List.append_assoc, ← tokens_append, ← List.append_assoc, ← named_append]
    refine .error rfl (hms.append hms') ?_ hend
    rw [opened_append]
    omega

/-! ## Readers that go on behind errors -/

inductive Pending (k : Nat) (ts : List Token) : List Expectation → Prop
  | nothing : Pending k ts []
  | closing {xs} : (front ts).kind = .mark .rightBrace → xs.length ≤ 1 → Pending k ts xs
  | ended {xs} : (front ts).kind = .ending → xs.length ≤ k → Pending k ts xs

namespace Pending

variable {k : Nat} {ts : List Token} {xs : List Expectation}

theorem eq_nil (h : Pending k ts xs) (hb : (front ts).kind ≠ .mark .rightBrace)
    (he : (front ts).kind ≠ .ending) : xs = [] := by
  cases h with
  | nothing => rfl
  | closing h => exact absurd h hb
  | ended h => exact absurd h he

theorem length_le_one (h : Pending k ts xs) (hb : (front ts).kind = .mark .rightBrace) :
    xs.length ≤ 1 := by
  cases h with
  | nothing => exact Nat.zero_le 1
  | closing _ hlen => exact hlen
  | ended he => rw [hb] at he; cases he

theorem length_le (h : Pending k ts xs) (he : (front ts).kind = .ending) : xs.length ≤ k := by
  cases h with
  | nothing => exact Nat.zero_le k
  | closing hb => rw [hb] at he; cases he
  | ended _ hlen => exact hlen

end Pending

/-- From errors `ys` pending at the front to errors pending at the rest, with
the tokens between accounted for. -/
inductive Parsed.Settles {α : Type} (k : Nat) (ts : List Token) (ys : List Expectation) :
    Parsed α → Prop
  | ok {m r x es a} : ts = tokens m ++ r → Calm m →
      ys.map (blame ts) ++ es = named m ++ x.map (blame r) →
      Pending (k + opened m) r x → Settles k ts ys ⟨.ok a, es, r⟩

namespace Parser

variable {α β : Type}

def Settling (p : Parser α) : Prop := ∀ ⦃k ts ys⦄, 1 ≤ k → Pending k ts ys → (p ts).Settles k ts ys

theorem settling_pure (a : α) : Settling (pure a : Parser α) := by
  intro k ts ys _ hys
  exact .ok (m := []) (x := ys) rfl calm_nil (by simp) hys

theorem Settling.behind {p : Parser α} {f : α → Parser β} (hf : ∀ a, Settling (f a)) {k : Nat}
    {ts : List Token} {ys : List Expectation} (hk : 1 ≤ k) (h : (p ts).Settles k ts ys) :
    ((p >>= f) ts).Settles k ts ys := by
  simp only [Bind.bind, Parser.bind]
  generalize p ts = o at h
  cases h with
  | @ok m r x es a hts hm hes hx =>
    have h' := hf a (Nat.le_add_right_of_le hk) hx
    simp only
    generalize f a r = o' at h'
    cases h' with
    | @ok m' r' x' es' b hr hm' hes' hx' =>
      refine .ok (m := m ++ m') (x := x') ?_ (hm.append hm') ?_ ?_
      · rw [hts, hr, tokens_append, List.append_assoc]
      · rw [← List.append_assoc, hes, List.append_assoc, hes', named_append, List.append_assoc]
      · rw [opened_append, ← Nat.add_assoc]
        exact hx'

theorem Settling.bind {p : Parser α} {f : α → Parser β} (hp : Settling p)
    (hf : ∀ a, Settling (f a)) : Settling (p >>= f) :=
  fun _ _ _ hk hys => behind hf hk (hp hk hys)

theorem Settling.many {item : Parser (Option α)} (h : Settling item) : ∀ b, Settling (many item b)
  | 0 => settling_pure []
  | b + 1 => by
    refine h.bind fun o => ?_
    cases o with
    | none => exact settling_pure []
    | some a => exact (h.many b).bind fun more => settling_pure _

/-! ## Recovery -/

theorem skipPast_split : ∀ (previous : Token) (ts : List Token),
    ∃ c, ts = c ++ skipPast previous ts ∧ ∀ t ∈ c, t.kind ≠ .mark .rightBrace ∧ t.kind ≠ .ending
  | _, [] => ⟨[], rfl, by simp⟩
  | previous, t :: ts => by
    rw [skipPast]
    split
    · exact ⟨[], rfl, by simp⟩
    · rename_i hstop
      obtain ⟨c, hc, hpassed⟩ := skipPast_split t ts
      have hb : t.kind ≠ .mark .rightBrace := fun hk => by simp [Token.isMark, hk] at hstop
      have he : t.kind ≠ .ending := fun hk => by simp [Token.isEnding, hk] at hstop
      exact ⟨t :: c, by rw [List.cons_append, ← hc], List.forall_mem_cons.mpr ⟨⟨hb, he⟩, hpassed⟩⟩

theorem synchronize_stays {ts : List Token}
    (h : (front ts).kind = .mark .rightBrace ∨ (front ts).kind = .ending) :
    synchronize ts = ts := by
  cases ts with
  | nil => rfl
  | cons t ts =>
    rw [synchronize, if_pos]
    rw [Bool.or_eq_true, Token.isMark_iff, Token.isEnding_iff]
    exact h

theorem synchronize_moves {ts : List Token} (hb : (front ts).kind ≠ .mark .rightBrace)
    (he : (front ts).kind ≠ .ending) :
    ∃ t c, ts = t :: c ++ synchronize ts ∧ t.kind ≠ .ending ∧ ∀ u ∈ c, u.kind ≠ .ending := by
  cases ts with
  | nil => exact absurd rfl he
  | cons t ts =>
    obtain ⟨c, hc, hpassed⟩ := skipPast_split t ts
    have hgo : ¬ (t.isMark .rightBrace || t.isEnding) = true := by
      rw [Bool.or_eq_true, Token.isMark_iff, Token.isEnding_iff]
      exact fun h => h.elim hb he
    rw [synchronize, if_neg hgo]
    exact ⟨t, c, by rw [List.cons_append, ← hc], he, fun u hu => (hpassed u hu).2⟩

theorem recover_settles {p : Parser α} {ts : List Token} (h : (p ts).Firm ts) {k : Nat}
    (hk : 1 ≤ k) : (recover p ts).Settles k ts [] := by
  rw [recover]
  generalize p ts = o at h
  cases h with
  | ok hts hms => exact .ok (x := []) hts hms (by simp) .nothing
  | @error ms r xs x hts hms hlen hend =>
    simp only
    -- at an ending or a closing brace the error is pending, and any other token is taken with it
    by_cases hended : (front r).kind = .ending
    · rw [synchronize_stays (.inr hended)]
      refine .ok (m := ms) (x := xs ++ [x]) hts hms (by simp) (.ended hended ?_)
      simp only [List.length_append, List.length_singleton]
      omega
    · obtain rfl : xs = [] := Classical.byContradiction fun hne => hended (hend hne)
      by_cases hb : (front r).kind = .mark .rightBrace
      · rw [synchronize_stays (.inl hb)]
        exact .ok (m := ms) (x := [x]) hts hms (by simp) (.closing hb (Nat.le_refl 1))
      · obtain ⟨t, c, hr, ht, hc⟩ := synchronize_moves hb hended
        have hfront : front r = t := by rw [hr]; rfl
        refine .ok (m := ms ++ ([(t, [x])] ++ unnamed c)) (x := []) ?_
          (hms.append ((calm_single ht (by simp)).append (calm_unnamed hc))) ?_ .nothing
        · rw [hts]
          nth_rewrite 1 [hr]
          simp
        · simp [blame, hfront]

/-! ## Blocks -/

theorem blockItem_settling {p : Parser Stmt} (hp : ∀ ts, (p ts).Firm ts) :
    Settling (blockItem p) := by
  intro k ts ys hk hys
  rw [blockItem, peek_bind]
  by_cases hstop : ((front ts).isMark .rightBrace || (front ts).isEnding) = true
  · rw [if_pos hstop]
    exact settling_pure none hk hys
  · rw [if_neg hstop]
    simp only [Bool.or_eq_true, Token.isMark_iff, Token.isEnding_iff, not_or] at hstop
    obtain rfl := hys.eq_nil hstop.1 hstop.2
    exact Settling.behind (fun s => settling_pure (some s)) hk (recover_settles (hp ts) hk)

theorem mark_bind_cases (q : Mark) (x : Expectation) (f : Token → Parser α) (ts : List Token) :
    (∃ t r, ts = t :: r ∧ t.kind = .mark q ∧ (mark q x >>= f) ts = f t r) ∨
      (front ts).kind ≠ .mark q ∧ (mark q x >>= f) ts = ⟨.error (blame ts x), [], ts⟩ := by
  by_cases ht : (front ts).kind = .mark q
  · cases ts with
    | nil => cases ht
    | cons t ts => exact .inl ⟨t, ts, rfl, ht, mark_bind ht x f ts⟩
  · refine .inr ⟨ht, bind_of_error ?_ f⟩
    rw [mark, take, peek_bind, if_neg (by rwa [Token.isMark_iff])]
    rfl

theorem block_firm {p : Parser Stmt} (hp : ∀ ts, (p ts).Firm ts) (b : Nat) {left : Token}
    (hl : left.kind = .mark .leftBrace) (ts : List Token) : (block b p ts).Firm (left :: ts) := by
  have hleft : Calm [(left, [])] := calm_single (by simp [hl]) (Nat.zero_le 1)
  have h := (blockItem_settling hp).many b (Nat.le_refl 1) (@Pending.nothing 1 ts)
  generalize hmany : many (blockItem p) b ts = o at h
  cases h with
  | @ok m r x es a hts hm hes hx =>
    obtain rfl : es = named m ++ x.map (blame r) := hes
    rw [block, bind_of_reported hmany]
    rcases mark_bind_cases .rightBrace .blockEnd (fun _ => pure (a.filterMap id)) r with
      ⟨right, r, rfl, hright, hread⟩ | ⟨hright, hread⟩
    · -- the closing brace takes what was expected in its place into the account
      have hbrace : Calm [(right, x)] := calm_single (by simp [hright]) (hx.length_le_one hright)
      have hnamed : named m ++ x.map (blame (right :: r)) ++ [] =
          named ([(left, [])] ++ (m ++ [(right, x)])) := by
        simp
      rw [hread, pure_apply, hnamed]
      exact .ok (by simp [hts]) (hleft.append (hm.append hbrace))
    · -- only an ending is left with errors, and the block that is open names it once more
      have hnamed : named m ++ x.map (blame r) ++ [] = named ([(left, [])] ++ m) ++
          x.map (blame r) := by simp
      rw [hread, hnamed]
      refine .error (by simp [hts]) (hleft.append hm) ?_ ?_
      · rw [List.singleton_append, opened_cons_of_leftBrace _ _ hl]
        by_cases he : (front r).kind = .ending
        · have hlen := hx.length_le he
          omega
        · rw [hx.eq_nil hright he]
          exact Nat.zero_le _
      · exact fun hne => Classical.byContradiction fun he => hne (hx.eq_nil hright he)

/-! ## All readers -/

def firm : Manner Parser := ⟨Eq, 0, fun _ _ T _ _ p _ => ∀ ts, T (front ts) → (p ts).Firm ts⟩

theorem firm_pure {α : Type} (a : α) (ts : List Token) : Parsed.Firm ts ((pure a : Parser α) ts) :=
  .ok (m := []) rfl calm_nil

theorem firm_fail {α : Type} (x : Expectation) (ts : List Token) :
    Parsed.Firm ts ((fail x : Parser α) ts) :=
  .error (m := []) (x := []) rfl calm_nil (Nat.zero_le _) (absurd rfl)

theorem firm_plain : firm.Plain where
  extent h := h
  kinds h := by rw [h]
  only h ts _ := h ts trivial
  fewer h _ := h
  pure _ ts _ := firm_pure _ ts
  fail _ ts _ := firm_fail _ ts
  bind {v T α β _ _ p q f g} hp hf ts hT := by
    have h := hp ts hT
    generalize hread : p ts = o at h
    cases h with
    | error hts hm hlen hend =>
      simp only [Bind.bind, Parser.bind, hread]
      exact .error hts hm hlen hend
    | @ok m r a hts hm =>
      rw [bind_of_reported hread, hts]
      exact Parsed.Firm.behind hm (hf a a (Likened.rel_eq.mpr rfl) r trivial)
  peek h ts hT := by
    rw [peek_bind]
    exact h _ _ hT rfl ts rfl
  skip {v t α _ f g} ht h ts hT := by
    obtain ⟨ts, rfl⟩ := exists_cons_of_front hT ht.1
    have hu : Calm [(t, [])] := calm_single ht.1 (Nat.zero_le 1)
    rw [skip_bind ht.1]
    exact Parsed.Firm.behind hu (h ts trivial)
  spent _ ts _ := firm_pure [] ts
  unary ts _ := firm_fail .expression ts

theorem firm_assigned (ts : List Token) : (assigned? ts).Firm ts := by
  obtain ⟨o, ho⟩ := exists_assigned ts
  rw [ho]
  exact .ok (m := []) rfl calm_nil

theorem firm_laws : firm.Laws := by
  refine firm_plain.laws (fun ts _ => firm_assigned ts) (fun ts _ => firm_fail .expression ts) ?_
  intro v b n t ht _ h ts hT
  obtain ⟨ts, rfl⟩ := exists_cons_of_front hT (by simp [ht])
  rw [skip_bind (by simp [ht])]
  exact block_firm (fun ts => h ts trivial) b ht ts

theorem declarationWithin_firm (n : Nat) (ts : List Token) : (declarationWithin n ts).Firm ts :=
  declarationWithin_ok firm_laws (Nat.le_refl n) ts trivial

/-! ## Programs -/

theorem programItem_of_rightBrace {p : Parser Stmt} {right : Token}
    (hr : right.kind = .mark .rightBrace) (ts : List Token) :
    programItem p (right :: ts) = ⟨.ok (some none), [.unexpectedToken right .openBlock], ts⟩ := by
  have hreport : report .openBlock (right :: ts) =
      ⟨.ok (), [.unexpectedToken right .openBlock], right :: ts⟩ := rfl
  rw [programItem, peek_bind, front, if_neg (by simp [Token.isEnding, hr]),
    if_pos (Token.isMark_iff.mpr hr), bind_of_reported hreport, skip_bind (by simp [hr])]
  rfl

theorem programItem_settling {p : Parser Stmt} (hp : ∀ ts, (p ts).Firm ts) :
    Settling (programItem p) := by
  intro k ts ys hk hys
  by_cases hb : (front ts).kind = .mark .rightBrace
  · cases ts with
    | nil => cases hb
    | cons right ts =>
      have hr : right.kind = .mark .rightBrace := hb
      have hlen := hys.length_le_one hb
      have hbrace : Calm [(right, ys ++ [.openBlock])] := by
        simp only [Calm, List.mem_singleton, forall_eq, List.length_append, List.length_singleton]
        refine ⟨by simp [hr], ?_⟩
        rw [if_pos (Token.isMark_iff.mpr hr)]
        omega
      rw [programItem_of_rightBrace hr]
      exact .ok (m := [(right, ys ++ [.openBlock])]) (x := []) rfl hbrace (by simp) .nothing
  · rw [programItem, peek_bind]
    by_cases hended : (front ts).isEnding = true
    · rw [if_pos hended]
      exact settling_pure none hk hys
    · rw [if_neg hended, if_neg (by rwa [Token.isMark_iff])]
      obtain rfl := hys.eq_nil hb (by rwa [Token.isEnding_iff] at hended)
      exact Settling.behind (fun s => settling_pure (some s)) hk (recover_settles (hp ts) hk)

theorem programWithin_settling (n : Nat) : Settling (programWithin n) :=
  ((programItem_settling (declarationWithin_firm n)).many n).bind fun _ => settling_pure _

end Parser

/-! ## The order of errors -/

namespace Account

def positions : Account → List Nat
  | [] => []
  | m :: ms => m.2.map (fun _ => 0) ++ (positions ms).map Nat.succ

theorem positions_pairwise : ∀ ms, (positions ms).Pairwise (· ≤ ·)
  | [] => .nil
  | m :: ms => by
    rw [positions, List.pairwise_append, List.pairwise_map, List.pairwise_map]
    refine ⟨List.pairwise_of_forall fun _ _ => Nat.le_refl 0, ?_, ?_⟩
    · exact (positions_pairwise ms).imp Nat.succ_le_succ
    · intro p hp q _
      obtain ⟨_, _, rfl⟩ := List.mem_map.mp hp
      exact Nat.zero_le q

theorem positions_named :
    ∀ ms, List.Forall₂ (fun e p => ∃ t x, (tokens ms)[p]? = some t ∧ e = .unexpectedToken t x)
    (named ms) (positions ms)
  | [] => .nil
  | (t, xs) :: ms => by
    rw [positions, named_cons, tokens_cons]
    refine List.rel_append ?_ ?_
    · rw [List.forall₂_map_left_iff, List.forall₂_map_right_iff, List.forall₂_same]
      exact fun x _ => ⟨t, x, rfl, rfl⟩
    · rw [List.forall₂_map_right_iff]
      exact (positions_named ms).imp fun e p h => by simpa using h

theorem count_positions : ∀ (ms : Account) (p : Nat),
    (positions ms).count p = (ms[p]?).elim 0 (·.2.length)
  | [], p => by simp [positions]
  | m :: ms, 0 => by
    have htail : ((positions ms).map Nat.succ).count 0 = 0 := List.count_eq_zero.mpr (by simp)
    rw [positions, List.count_append, htail, List.map_const', List.count_replicate_self]
    rfl
  | m :: ms, p + 1 => by
    have hhead : (m.2.map fun _ => 0).count (p + 1) = 0 := List.count_eq_zero.mpr (by simp)
    rw [positions, List.count_append, hhead,
      List.count_map_of_injective _ _ (fun _ _ => Nat.succ.inj), count_positions, Nat.zero_add]
    rfl

end Account

theorem parse_account {ts : List Token} (hended : ∃ t ∈ ts, t.kind = .ending) :
    ∃ (ms : Account) (r : List Token), ts = tokens ms ++ r ∧ (parse ts).errors = named ms ∧
      ∀ m ∈ ms, (m.1.kind ≠ .mark .rightBrace → m.1.kind ≠ .ending → m.2.length ≤ 1) ∧
        (m.1.kind = .mark .rightBrace → m.2.length ≤ 2) ∧
        (m.1.kind = .ending → m.2.length ≤ 1 + opened ms) := by
  have h := Parser.programWithin_settling ts.length (Nat.le_refl 1) (@Pending.nothing 1 ts)
  rw [parse]
  simp only
  generalize Parser.programWithin ts.length ts = o at h
  cases h with
  | @ok ms r xs es a hts hms hes hxs =>
    -- the ending is not among the tokens taken, so there is a token where reading stops
    obtain ⟨t, r, rfl⟩ : ∃ t r', r = t :: r' := by
      obtain ⟨ending, hmem, he⟩ := hended
      rw [hts] at hmem
      refine List.exists_cons_of_ne_nil
        (List.ne_nil_of_mem ((List.mem_append.mp hmem).resolve_left fun htaken => ?_))
      obtain ⟨m, hm, rfl⟩ := List.mem_map.mp htaken
      exact (hms m hm).1 he
    refine ⟨ms ++ [(t, xs)], r, by simp [hts], by simpa using hes, ?_⟩
    intro m hm
    rcases List.mem_append.mp hm with hm | hm
    · obtain ⟨hne, hlen⟩ := hms m hm
      refine ⟨fun hb _ => ?_, fun hb => ?_, fun hk => absurd hk hne⟩
      · rwa [if_neg (by rwa [Token.isMark_iff])] at hlen
      · rwa [if_pos (by rwa [Token.isMark_iff])] at hlen
    · obtain rfl := List.mem_singleton.mp hm
      refine ⟨fun hb hk => ?_, fun hb => ?_, fun hk => ?_⟩
      · rw [hxs.eq_nil hb hk]
        exact Nat.zero_le 1
      · exact Nat.le_succ_of_le (hxs.length_le_one hb)
      · rw [opened_append, ← Nat.add_assoc]
        exact Nat.le_add_right_of_le (hxs.length_le hk)

/-- Errors come in the order of the tokens they name, and few name the same
token. The ending can be named once more for each block that it leaves open. -/
theorem parse_errors_in_order {ts : List Token} (hended : ∃ t ∈ ts, t.kind = .ending) :
    ∃ ps : List Nat, ps.Pairwise (· ≤ ·) ∧
      List.Forall₂ (fun e p => ∃ t x, ts[p]? = some t ∧ e = .unexpectedToken t x)
        (parse ts).errors ps ∧
      ∀ p t, ts[p]? = some t →
        (t.kind ≠ .mark .rightBrace → t.kind ≠ .ending → ps.count p ≤ 1) ∧
        (t.kind = .mark .rightBrace → ps.count p ≤ 2) ∧
        (t.kind = .ending → ps.count p ≤ 1 + ts.countP (·.isMark .leftBrace)) := by
  obtain ⟨ms, r, rfl, herrors, hcalm⟩ := parse_account hended
  have htoken : ∀ {p : Nat} {t : Token}, (tokens ms)[p]? = some t →
      (tokens ms ++ r)[p]? = some t := by
    intro p t ht
    rw [List.getElem?_append_left (List.getElem?_eq_some_iff.mp ht).1, ht]
  refine ⟨positions ms, positions_pairwise ms, ?_, ?_⟩
  · rw [herrors]
    refine (positions_named ms).imp ?_
    rintro e p ⟨t, x, ht, rfl⟩
    exact ⟨t, x, htoken ht, rfl⟩
  · intro p t ht
    rw [count_positions]
    cases hm : ms[p]? with
    | none => simp
    | some m =>
      obtain rfl : m.1 = t := by
        have htaken : (tokens ms)[p]? = some m.1 := by rw [tokens, List.getElem?_map, hm]; rfl
        exact Option.some.inj ((htoken htaken).symm.trans ht)
      obtain ⟨hother, hbrace, hlast⟩ := hcalm m (List.mem_of_getElem? hm)
      refine ⟨hother, hbrace, fun hk => Nat.le_trans (hlast hk) ?_⟩
      simp [opened]

/-- In `cetak } { { cetak` the brace is named twice, and the ending three times. -/
theorem parse_errors_in_order_unclosed :
    let t (k : Kind) : Token := ⟨k, "", 1⟩
    let ts := [t (.keyword .cetak), t (.mark .rightBrace), t (.mark .leftBrace),
      t (.mark .leftBrace), t (.keyword .cetak), t .ending]
    let es : List SyntaxError := [.unexpectedToken (t (.mark .rightBrace)) .expression,
      .unexpectedToken (t (.mark .rightBrace)) .openBlock, .unexpectedToken (t .ending) .expression,
      .unexpectedToken (t .ending) .blockEnd, .unexpectedToken (t .ending) .blockEnd]
    (parse ts).errors = es ∧
      ∃ ps : List Nat, ps.Pairwise (· ≤ ·) ∧ ps.length = 5 ∧ ps.count 1 ≤ 2 ∧ ps.count 5 ≤ 3 := by
  intro t ts es
  have herrors : (parse ts).errors = es := rfl
  obtain ⟨ps, hordered, hnamed, hcount⟩ := @parse_errors_in_order ts ⟨t .ending, by simp [ts], rfl⟩
  rw [herrors] at hnamed
  exact ⟨herrors, ps, hordered, hnamed.length_eq.symm, (hcount 1 _ rfl).2.1 rfl,
    (hcount 5 _ rfl).2.2 rfl⟩

end Naskah
