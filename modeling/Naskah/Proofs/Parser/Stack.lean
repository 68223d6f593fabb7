import Naskah.Proofs.Grammar.Matching
import Naskah.Proofs.Parser.Termination

/-!
# The stack of open blocks

Open blocks are kept in the recursion of the readers. An error unwinds it no
further than to the declaration that it stands in, so it closes no block, and
recovery stops at a closing brace. What recovery skips is not seen by any block,
opening braces included. So reading is a walk over the tokens with a stack, on
which each token is put as `braceStep` says unless recovery skips it, and a
closing brace is reported where the stack is empty.
-/

namespace Naskah

open Naskah.Parser

/-! ## Walks -/

/-- From a list with some braces open to another, with the errors on the way. -/
inductive Walk : List Token → List Token → List SyntaxError → List Token → List Token → Prop
  | stop {s ts} : Walk s ts [] s ts
  | takes {s t ts es s' r} : t.kind ≠ .ending → (t.kind = .mark .rightBrace → s ≠ []) →
      Walk (braceStep s t) ts es s' r → Walk s (t :: ts) es s' r
  | stray {t ts es s' r} : t.kind = .mark .rightBrace → Walk [] ts es s' r →
      Walk [] (t :: ts) (.unexpectedToken t .openBlock :: es) s' r
  | recovers {s ts x es s' r} : x ≠ .openBlock → Walk s (synchronize ts) es s' r →
      Walk s ts (blame ts x :: es) s' r

section
variable {s s' u ts r r' : List Token} {es es' : List SyntaxError}

theorem Walk.trans (h : Walk s ts es s' r) (h' : Walk s' r es' u r') :
    Walk s ts (es ++ es') u r' := by
  induction h with
  | stop => exact h'
  | takes ht hs _ ih => exact .takes ht hs (ih h')
  | stray ht _ ih => exact .stray ht (ih h')
  | recovers hx _ ih => exact .recovers hx (ih h')

/-- At an ending only errors are left, whatever is open. -/
theorem Walk.ended (h : Walk s ts es s' r) (hts : (front ts).kind = .ending) (u : List Token) :
    r = ts ∧ Walk u ts es u ts := by
  induction h with
  | stop => exact ⟨rfl, .stop⟩
  | takes ht => exact absurd hts ht
  | stray ht => simp [front, ht] at hts
  | recovers hx _ ih =>
    rw [synchronize_stays (.inr hts)] at ih
    obtain ⟨hr, hwalk⟩ := ih hts
    refine ⟨hr, .recovers hx ?_⟩
    rwa [synchronize_stays (.inr hts)]

theorem Walk.length_le (h : Walk s ts es s' r) : r.length ≤ ts.length := by
  induction h with
  | stop => exact Nat.le_refl _
  | takes _ _ _ ih => exact Nat.le_succ_of_le ih
  | stray _ _ ih => exact Nat.le_succ_of_le ih
  | recovers _ _ ih => exact Nat.le_trans ih (Attempt.synchronize_length_le _)

/-! ## Walks that close what they open -/

/-- Only the end of the list can leave more open than there was. -/
def Level (s ts : List Token) (es : List SyntaxError) (r : List Token) : Prop :=
  ∃ s', Walk s ts es s' r ∧ (s' = s ∨ (front r).kind = .ending)

theorem Level.refl : Level s ts [] ts := ⟨s, .stop, .inl rfl⟩

theorem Level.trans (h : Level s ts es r) (h' : Level s r es' r') : Level s ts (es ++ es') r' := by
  obtain ⟨u, hwalk, hu⟩ := h
  obtain ⟨u', hwalk', hu'⟩ := h'
  rcases hu with rfl | hend
  · exact ⟨u', hwalk.trans hwalk', hu'⟩
  · obtain ⟨rfl, hagain⟩ := hwalk'.ended hend u
    exact ⟨u, hwalk.trans hagain, .inr hend⟩

theorem Level.length_le (h : Level s ts es r) : r.length ≤ ts.length := by
  obtain ⟨_, hwalk, _⟩ := h
  exact hwalk.length_le

theorem Level.cons {t : Token} (ht : t.kind.Inner) (h : Level s ts es r) :
    Level s (t :: ts) es r := by
  obtain ⟨u, hwalk, hu⟩ := h
  refine ⟨u, .takes ht.1 (fun hr => absurd hr ht.2.2) ?_, hu⟩
  rwa [braceStep_other s ht.2]

theorem Level.stray {t : Token} (ht : t.kind = .mark .rightBrace) (ts : List Token) :
    Level [] (t :: ts) [.unexpectedToken t .openBlock] ts :=
  ⟨[], .stray ht .stop, .inl rfl⟩

theorem Level.recovers {x : Expectation} (hx : x ≠ .openBlock) (s ts : List Token) :
    Level s ts [blame ts x] (synchronize ts) :=
  ⟨s, .recovers hx .stop, .inl rfl⟩

theorem Level.closed {left right : Token} (hl : left.kind = .mark .leftBrace)
    (hr : right.kind = .mark .rightBrace) (h : Level (left :: s) ts es (right :: r)) :
    Level s (left :: ts) es r := by
  obtain ⟨u, hwalk, hu⟩ := h
  obtain rfl : u = left :: s := hu.resolve_right (by simp [front, hr])
  refine ⟨s, ?_, .inl rfl⟩
  have hclose : Walk (left :: s) (right :: r) [] s r := by
    refine .takes (by simp [hr]) (fun _ => by simp) ?_
    rw [braceStep_right _ hr]
    exact .stop
  have hopen : Walk s (left :: ts) es (left :: s) (right :: r) := by
    refine .takes (by simp [hl]) (by simp [hl]) ?_
    rwa [braceStep_left _ hl]
  simpa using hopen.trans hclose

theorem Level.unclosed {left : Token} (hl : left.kind = .mark .leftBrace)
    (hend : (front r).kind = .ending) (h : Level (left :: s) ts es r) :
    Level s (left :: ts) es r := by
  obtain ⟨u, hwalk, _⟩ := h
  refine ⟨u, .takes (by simp [hl]) (by simp [hl]) ?_, .inr hend⟩
  rwa [braceStep_left _ hl]

end

/-! ## Readers on the level -/

/-- An error is at the front of the rest, and asks for no open block. -/
inductive Parsed.Walked {α : Type} (s ts : List Token) : Parsed α → Prop
  | ok {a es r} : Level s ts es r → Walked s ts ⟨.ok a, es, r⟩
  | error {x es r} : x ≠ .openBlock → Level s ts es r → Walked s ts ⟨.error (blame r x), es, r⟩

theorem Parsed.Walked.behind {α : Type} {s ts r r' : List Token} {es es' : List SyntaxError}
    {result : Except SyntaxError α} (h : Level s ts es r)
    (h' : Parsed.Walked s r ⟨result, es', r'⟩) :
    Parsed.Walked s ts ⟨result, es ++ es', r'⟩ := by
  cases h' with
  | ok hlevel => exact .ok (h.trans hlevel)
  | error hx hlevel => exact .error hx (h.trans hlevel)

inductive Parsed.Item {α : Type} (Stop : Token → Prop) (s ts : List Token) :
    Parsed (Option α) → Prop
  | none : Stop (front ts) → Item Stop s ts ⟨.ok none, [], ts⟩
  | some {a es r} : r.length < ts.length → Level s ts es r → Item Stop s ts ⟨.ok (some a), es, r⟩

namespace Parser

variable {α β : Type}

def level : Manner Parser :=
  ⟨Eq, 0, fun _ v T _ _ p _ => ∀ ts, ts.length ≤ v → T (front ts) → ∀ s, (p ts).Walked s ts⟩

theorem recover_level {p : Parser α} {s ts : List Token} (h : (p ts).Walked s ts) :
    ∃ o es r, recover p ts = ⟨.ok o, es, r⟩ ∧ Level s ts es r := by
  rw [recover]
  generalize p ts = result at h
  cases h with
  | ok hlevel => exact ⟨_, _, _, rfl, hlevel⟩
  | error hx hlevel => exact ⟨_, _, _, rfl, hlevel.trans (.recovers hx s _)⟩

/-! ## Loops -/

theorem many_level {Stop : Token → Prop} {s : List Token} {v : Nat} {item : Parser (Option α)}
    (hitem : ∀ ts, ts.length ≤ v → Parsed.Item Stop s ts (item ts)) :
    ∀ b ts, ts.length ≤ b → ts.length ≤ v →
      ∃ as es r, many item b ts = ⟨.ok as, es, r⟩ ∧ Level s ts es r ∧ Stop (front r)
  | 0, ts, hb, hv => by
    have h := hitem ts hv
    generalize item ts = o at h
    cases h with
    | none hstop => exact ⟨[], [], ts, rfl, .refl, hstop⟩
    | some hlt => omega
  | b + 1, ts, hb, hv => by
    have h := hitem ts hv
    generalize hread : item ts = o at h
    cases h with
    | none hstop => exact ⟨[], [], ts, many_of_none hread (b + 1), .refl, hstop⟩
    | @some a es r hlt hlevel =>
      obtain ⟨as, es', r', hmore, hlevel', hstop⟩ := many_level hitem b r (by omega) (by omega)
      refine ⟨a :: as, es ++ es', r', ?_, hlevel.trans hlevel', hstop⟩
      rw [many, bind_of_reported hread]
      simp only
      rw [bind_of_reported hmore, pure_apply, List.append_nil]

section
variable {v n : Nat} {q : Parser Stmt} (hd : level.Ok .part v Anything (declarationWithin n) q)
include hd

theorem recovered_item {Stop : Token → Prop} (s : List Token) {ts : List Token}
    (hts : ts.length ≤ v) (hb : (front ts).kind ≠ .mark .rightBrace)
    (he : (front ts).kind ≠ .ending) :
    Parsed.Item Stop s ts ((recover (declarationWithin n) >>= fun o => pure (some o)) ts) := by
  obtain ⟨o, es, r, hread, hlevel⟩ := recover_level (hd ts hts trivial s)
  have hlt := recover_advances n hb he
  rw [hread] at hlt
  rw [bind_of_reported hread, pure_apply, List.append_nil]
  exact .some hlt hlevel

theorem blockItem_level (s ts : List Token) (hts : ts.length ≤ v) :
    Parsed.Item (fun t => t.kind = .mark .rightBrace ∨ t.kind = .ending) s ts
      (blockItem (declarationWithin n) ts) := by
  rw [blockItem, peek_bind]
  by_cases hstop : ((front ts).isMark .rightBrace || (front ts).isEnding) = true
  · rw [if_pos hstop]
    rw [Bool.or_eq_true, Token.isMark_iff, Token.isEnding_iff] at hstop
    exact .none hstop
  · rw [if_neg hstop]
    rw [Bool.or_eq_true, Token.isMark_iff, Token.isEnding_iff, not_or] at hstop
    exact recovered_item hd s hts hstop.1 hstop.2

theorem programItem_level (ts : List Token) (hts : ts.length ≤ v) :
    Parsed.Item (fun t => t.kind = .ending) [] ts (programItem (declarationWithin n) ts) := by
  by_cases hb : (front ts).kind = .mark .rightBrace
  · cases ts with
    | nil => cases hb
    | cons right ts =>
      have hr : right.kind = .mark .rightBrace := hb
      rw [programItem_of_rightBrace hr]
      exact .some (Nat.lt_succ_self _) (.stray hr ts)
  · rw [programItem, peek_bind]
    by_cases he : (front ts).isEnding = true
    · rw [if_pos he]
      exact .none (Token.isEnding_iff.mp he)
    · rw [if_neg he, if_neg (by rwa [Token.isMark_iff])]
      exact recovered_item hd [] hts hb (by rwa [Token.isEnding_iff] at he)

theorem block_walked {b : Nat} {left : Token} (hl : left.kind = .mark .leftBrace)
    (s ts : List Token) (hv : ts.length ≤ v) (hb : ts.length ≤ b) :
    (block b (declarationWithin n) ts).Walked s (left :: ts) := by
  obtain ⟨items, es, r, hitems, hlevel, hstop⟩ :=
    many_level (blockItem_level hd (left :: s)) b ts hb hv
  rw [block, bind_of_reported hitems]
  rcases mark_bind_cases .rightBrace .blockEnd (fun _ => pure (items.filterMap id)) r with
    ⟨right, r, rfl, hr, hread⟩ | ⟨hr, hread⟩
  · rw [hread, pure_apply, List.append_nil]
    exact .ok (hlevel.closed hl hr)
  · rw [hread, List.append_nil]
    exact .error (by decide) (hlevel.unclosed hl (hstop.resolve_left hr))

end

/-! ## All readers -/

theorem level_plain : level.Plain where
  extent h := h
  kinds h := by rw [h]
  only h ts hts _ := h ts hts trivial
  fewer h hw ts hts := h ts (Nat.le_trans hts hw)
  pure _ ts _ _ s := .ok .refl
  fail hx ts _ _ s := .error hx .refl
  bind {v T α β _ _ p q f g} hp hf ts hts hT s := by
    have h := hp ts hts hT s
    generalize hread : p ts = o at h
    cases h with
    | error hx hlevel =>
      simp only [Bind.bind, Parser.bind, hread]
      exact .error hx hlevel
    | @ok a es r hlevel =>
      rw [bind_of_reported hread]
      exact Parsed.Walked.behind hlevel
        (hf a a (Likened.rel_eq.mpr rfl) r (Nat.le_trans hlevel.length_le hts) trivial s)
  peek h ts hts hT s := by
    rw [peek_bind]
    exact h _ _ hT rfl ts hts rfl s
  skip {v t α _ f g} ht h ts hts hT s := by
    obtain ⟨ts, rfl⟩ := exists_cons_of_front hT ht.1
    rw [skip_bind ht.1]
    exact Parsed.Walked.behind (Level.refl.cons ht) (h ts (Nat.le_sub_one_of_lt hts) trivial s)
  spent _ ts _ _ s := .ok .refl
  unary ts _ _ s := .error (by decide) .refl

theorem level_laws : level.Laws := by
  refine level_plain.laws (fun ts _ _ s => ?_) (fun ts _ _ s => .error (by decide) .refl) ?_
  · obtain ⟨o, ho⟩ := exists_assigned ts
    rw [ho]
    exact .ok .refl
  · intro v b n t ht hb h ts hts hT s
    obtain ⟨ts, rfl⟩ := exists_cons_of_front hT (by simp [ht])
    have hlength : ts.length ≤ v - 1 := Nat.le_sub_one_of_lt hts
    rw [skip_bind (by simp [ht])]
    exact block_walked h ht s ts hlength (by omega)

theorem declarationWithin_level (n : Nat) :
    level.Ok .part n Anything (declarationWithin n) (Reading.declaration n) :=
  level_plain.extent (declarationWithin_ok level_laws (Nat.le_refl n))

end Parser

/-- Reading a program walks from an empty stack to the end of the list. -/
theorem parse_level (ts : List Token) :
    ∃ r, Level [] ts (parse ts).errors r ∧ (front r).kind = .ending := by
  obtain ⟨items, es, r, hitems, hlevel, hend⟩ :=
    many_level (programItem_level (declarationWithin_level ts.length)) ts.length ts (Nat.le_refl _)
      (Nat.le_refl _)
  refine ⟨r, ?_, hend⟩
  rw [parse, programWithin, bind_of_reported hitems]
  simpa [pure_apply] using hlevel

end Naskah
