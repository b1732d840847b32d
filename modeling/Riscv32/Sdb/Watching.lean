import Riscv32.Sdb.Inspect
import Riscv32.Sdb.Pool

/-!
# Watching what the user typed

`cmd_w` takes a node, stores the first 127 characters of its text and evaluates
the whole of it; `trace_and_difftest` evaluates what is stored.  A session
keeps, beside the debugger, the texts as they were typed and the values these
had when they were last looked at.

`Kept` is the condition on a text: `make_token` accepts it and cuts its first 127
characters into the same tokens.  `Tracked` ties the pool to the session, and one
action keeps it (`step_consistent`).

`watchpoints_consistent` is the result for runs whose watchpoints are set with kept
texts; without the condition a sum of 65 ones is evaluated and 64 of them are
stored (`long_sum_inconsistent`).
-/

namespace Riscv32.Sdb

open Riscv32.Data Riscv32.Rtl Riscv32.Nemu

variable {δ ρ : Type}

/-- A text that `make_token` accepts and whose first 127 characters it cuts into
the same tokens. -/
def Kept (e : List Char) : Prop :=
  ∃ tokens, makeToken e = .ok (some tokens) ∧ makeToken (e.take 127) = .ok (some tokens)

/-- A text that fits is stored whole. -/
theorem kept_of_short {e : List Char} {tokens : List Token}
    (hTok : makeToken e = .ok (some tokens)) (hLen : e.length ≤ 127) : Kept e :=
  ⟨tokens, hTok, by rwa [List.take_of_length_le hLen]⟩

namespace WpPool

/-- The nodes from `ptr` on, at most `fuel` of them. -/
def chain (p : WpPool) : Nat → WpPtr → List (Fin nrWp)
  | 0, _ => []
  | _ + 1, none => []
  | fuel + 1, some n => n :: p.chain fuel (p.next n)

/-- The live watchpoints, newest first. -/
def live (p : WpPool) : List (Fin nrWp) := p.chain (nrWp + 1) p.head

end WpPool

/-! ## Sessions -/

/-- A debugger, the texts typed for its watchpoints and their last values. -/
structure Session (δ ρ : Type) where
  debugger : Debugger δ ρ
  typed : Fin nrWp → List Char
  seen : Fin nrWp → Word

/-- The values found by a check, and the machine behind it. -/
structure Looked (δ : Type) where
  seen : Fin nrWp → Word
  sys : Sys δ

/-- A check as the user expects it: every text typed is evaluated, and a value
other than the last one stops the machine. -/
def check (cfg : Config δ) (typed : Fin nrWp → List Char) :
    List (Fin nrWp) → (Fin nrWp → Word) → Sys δ → Option (Looked δ)
  | [], seen, s => some ⟨seen, s⟩
  | n :: ns, seen, s => do
    let (val, s) ← Debugger.inspect cfg s (typed n)
    check cfg typed ns (Function.update seen n val)
      (if val ≠ seen n then { s with state := .stop } else s)

namespace Session

/-- What the session notes of an action. -/
def note (cfg : Config δ) (s : Session δ ρ) : Action δ → Session δ ρ
  | .w e =>
    match s.debugger.pool.free, Debugger.inspect cfg s.debugger.sys e with
    | some n, some (val, _) =>
      { s with
        typed := Function.update s.typed n e
        seen := Function.update s.seen n val }
    | _, _ => s
  | .watch =>
    match check cfg s.typed s.debugger.pool.live s.seen s.debugger.sys with
    | some r => { s with seen := r.seen }
    | none => s
  | _ => s

/-- One action of the debugger, noted. -/
def step (cfg : Config δ) (ref : Ref ρ) (s : Session δ ρ) (a : Action δ) :
    Option (Session δ ρ) :=
  (s.debugger.step cfg ref a).map fun d => { s.note cfg a with debugger := d }

/-- A sequence of actions. -/
def run (cfg : Config δ) (ref : Ref ρ) (s : Session δ ρ) (acts : List (Action δ)) :
    Option (Session δ ρ) :=
  acts.foldlM (step cfg ref) s

end Session

/-! ## What is promised -/

/-- A watchpoint is added in front, and its value is that of the text stored in it. -/
def Adds (cfg : Config δ) (s s' : Session δ ρ) : Prop :=
  ∃ n val sys, s'.debugger.pool.live = n :: s.debugger.pool.live ∧
    Debugger.inspect cfg s.debugger.sys (s'.debugger.pool.wpPool n).addrExpr = some (val, sys) ∧
    (s'.debugger.pool.wpPool n).lastVal = val ∧
    ∀ m ∈ s.debugger.pool.live,
      (s'.debugger.pool.wpPool m).content = (s.debugger.pool.wpPool m).content

/-- A text that `make_token` does not accept leaves the pool alone, any other
adds a watchpoint. -/
def Sets (cfg : Config δ) (s s' : Session δ ρ) (e : List Char) : Prop :=
  (makeToken e = .ok none → s'.debugger.pool = s.debugger.pool) ∧
    (makeToken e ≠ .ok none → Adds cfg s s')

/-- A check finds the values of the texts typed, and stops the machine if one of
them is not the last one found, and only then. -/
def Checks (cfg : Config δ) (s s' : Session δ ρ) : Prop :=
  (∃ r, check cfg s.typed s.debugger.pool.live s.seen s.debugger.sys = some r ∧
      s'.seen = r.seen ∧ s'.debugger.sys = r.sys) ∧
    ((∃ n ∈ s.debugger.pool.live, s'.seen n ≠ s.seen n) → s'.debugger.sys.state = .stop) ∧
    ((∀ n ∈ s.debugger.pool.live, s'.seen n = s.seen n) →
      s'.debugger.sys.state = s.debugger.sys.state)

/-- `w` is atomic and a check sees what was typed. -/
def Consistent (cfg : Config δ) (s s' : Session δ ρ) : Action δ → Prop
  | .w e => Sets cfg s s' e
  | .watch => Checks cfg s s'
  | _ => True

/-- What the debugger holds of a session: live nodes have texts that are cut
into the tokens of the texts typed, and the values last seen. -/
structure Tracked (s : Session δ ρ) : Prop where
  lists : ∃ live free, Lists s.debugger.pool live free
  text : ∀ n ∈ s.debugger.pool.live,
    makeToken (s.debugger.pool.wpPool n).addrExpr = makeToken (s.typed n)
  value : ∀ n ∈ s.debugger.pool.live, (s.debugger.pool.wpPool n).lastVal = s.seen n

/-! ## Texts and lists -/

section Basic

variable {cfg : Config δ} {p : WpPool}

/-- An evaluation sees only the tokens of its text. -/
theorem inspect_congr {e e' : List Char} (h : makeToken e = makeToken e') (s : Sys δ) :
    Debugger.inspect cfg s e = Debugger.inspect cfg s e' := by
  simp only [Debugger.inspect, expr, h]

/-- An evaluation does not touch `nemu_state`. -/
theorem inspect_state {e : List Char} {s s' : Sys δ} {val : Word}
    (h : Debugger.inspect cfg s e = some (val, s')) : s'.state = s.state := by
  unfold Debugger.inspect at h
  split at h
  case h_1 r hExpr =>
    cases h
    refine derefs_invariant (I := fun s₁ _ => s₁.state = s.state) hExpr ?_ rfl
    intro addr v s₁ s₂ l hLoad hState
    rcases load_spec hLoad with ⟨-, rfl⟩ | ⟨-, dev, rfl⟩
    · exact hState
    · exact hState
  case h_2 => cases h

theorem chain_of_linked {l : List (Fin nrWp)} {ptr : WpPtr} {fuel : Nat}
    (h : Linked p.next ptr l) (hFuel : l.length < fuel) : p.chain fuel ptr = l := by
  induction l generalizing ptr fuel with
  | nil =>
      obtain ⟨fuel, rfl⟩ := Nat.exists_eq_succ_of_ne_zero (Nat.ne_zero_of_lt hFuel)
      rw [linked_nil.1 h]
      rfl
  | cons n l ih =>
      obtain ⟨fuel, rfl⟩ := Nat.exists_eq_succ_of_ne_zero (Nat.ne_zero_of_lt hFuel)
      obtain ⟨rfl, hRest⟩ := h
      rw [WpPool.chain, ih hRest (Nat.lt_of_succ_lt_succ hFuel)]

theorem Lists.live_eq {live free : List (Fin nrWp)} (h : Lists p live free) : p.live = live := by
  have hLen := h.length
  exact chain_of_linked h.linkHead (by omega)

end Basic

/-! ## A check -/

section Check

variable {cfg : Config δ} {typed : Fin nrWp → List Char} {seen : Fin nrWp → Word}

/-- What a check leaves in `nemu_state`, and the values it does not look at. -/
theorem check_state {l : List (Fin nrWp)} {s : Sys δ} {r : Looked δ}
    (h : check cfg typed l seen s = some r) (hNodup : l.Nodup) :
    (∀ m, m ∉ l → r.seen m = seen m) ∧ (s.state = .stop → r.sys.state = .stop) ∧
      ((∃ n ∈ l, r.seen n ≠ seen n) → r.sys.state = .stop) ∧
      ((∀ n ∈ l, r.seen n = seen n) → r.sys.state = s.state) := by
  induction l generalizing seen s with
  | nil =>
      cases h
      exact ⟨fun _ _ => rfl, id, by simp, fun _ => rfl⟩
  | cons n l ih =>
      obtain ⟨⟨val, s₁⟩, hInspect, hRest⟩ := Option.bind_eq_some_iff.1 h
      obtain ⟨hn, hl⟩ := List.nodup_cons.1 hNodup
      obtain ⟨hOther, hStop, hChanged, hSame⟩ := ih hRest hl
      have hState := inspect_state hInspect
      have hVal : r.seen n = val := by
        rw [hOther n hn, Function.update_self]
      have hOld {m : Fin nrWp} (hm : m ∈ l) : Function.update seen n val m = seen m := by
        have hNe : m ≠ n := fun hEq => hn (hEq ▸ hm)
        rw [Function.update_of_ne hNe]
      refine ⟨fun m hm => ?_, fun hs => hStop ?_, ?_, fun hAll => ?_⟩
      · obtain ⟨hNe, hm⟩ := not_or.1 (mt List.mem_cons.2 hm)
        rw [hOther m hm, Function.update_of_ne hNe]
      · split_ifs
        · rfl
        · rw [hState, hs]
      · rintro ⟨m, hm, hNe⟩
        rcases List.mem_cons.1 hm with rfl | hm
        · rw [hVal] at hNe
          refine hStop ?_
          rw [if_pos hNe]
        · exact hChanged ⟨m, hm, by rwa [hOld hm]⟩
      · have hHead : val = seen n := hVal.symm.trans (hAll n List.mem_cons_self)
        rw [hSame fun m hm => (hAll m (List.mem_cons_of_mem n hm)).trans (hOld hm).symm,
          if_neg (not_not.2 hHead), hState]

end Check

/-! ## The loop of `trace_and_difftest` -/

/-- The pool with new values and nothing else changed. -/
structure Revalued (p p' : WpPool) : Prop where
  next : p'.next = p.next
  head : p'.head = p.head
  free : p'.free = p.free
  no : ∀ m, (p'.wpPool m).no = (p.wpPool m).no
  text : ∀ m, (p'.wpPool m).addrExpr = (p.wpPool m).addrExpr

theorem Revalued.refl (p : WpPool) : Revalued p p := ⟨rfl, rfl, rfl, fun _ => rfl, fun _ => rfl⟩

theorem Revalued.trans {p q r : WpPool} (h : Revalued p q) (h' : Revalued q r) :
    Revalued p r where
  next := h'.next.trans h.next
  head := h'.head.trans h.head
  free := h'.free.trans h.free
  no m := (h'.no m).trans (h.no m)
  text m := (h'.text m).trans (h.text m)

theorem Revalued.lists {p p' : WpPool} {live free : List (Fin nrWp)} (h : Revalued p p')
    (hLists : Lists p live free) : Lists p' live free where
  linkHead := by
    rw [h.next, h.head]
    exact hLists.linkHead
  linkFree := by
    rw [h.next, h.free]
    exact hLists.linkFree
  perm := hLists.perm
  no n := (h.no n).trans (hLists.no n)

section Loop

variable {cfg : Config δ} {d d' : Debugger δ ρ}

/-- A value is recorded in its node. -/
theorem recordValue_spec (n : Fin nrWp) (val : Word) :
    Revalued d.pool (d.recordValue n val).pool ∧
      (∀ m, m ≠ n → ((d.recordValue n val).pool.wpPool m).lastVal = (d.pool.wpPool m).lastVal) ∧
      ((d.recordValue n val).pool.wpPool n).lastVal = val ∧
      (d.recordValue n val).sys =
        if val ≠ (d.pool.wpPool n).lastVal then { d.sys with state := .stop } else d.sys := by
  unfold Debugger.recordValue
  split_ifs with hVal
  · refine ⟨⟨?_, rfl, rfl, fun m => ?_, fun m => ?_⟩, fun m hm => ?_, ?_, rfl⟩
    · rw [next_set]
      exact Function.update_eq_self n d.pool.next
    · by_cases hm : m = n
      · subst hm
        simp [WpPool.set]
      · simp [WpPool.set, hm]
    · by_cases hm : m = n
      · subst hm
        simp [WpPool.set]
      · simp [WpPool.set, hm]
    · simp [WpPool.set, hm]
    · simp [WpPool.set]
  · exact ⟨Revalued.refl _, fun _ _ => rfl, (not_not.1 hVal).symm, rfl⟩

/-- The loop is a check of the texts typed. -/
theorem watchLoop_check {typed : Fin nrWp → List Char} {seen : Fin nrWp → Word}
    {l : List (Fin nrWp)} {ptr : WpPtr} {fuel : Nat} (hLink : Linked d.pool.next ptr l)
    (hNodup : l.Nodup) (hFuel : l.length < fuel)
    (hText : ∀ n ∈ l, makeToken (d.pool.wpPool n).addrExpr = makeToken (typed n))
    (hValue : ∀ n ∈ l, (d.pool.wpPool n).lastVal = seen n)
    (h : Debugger.watchLoop cfg fuel ptr d = some d') :
    ∃ r, check cfg typed l seen d.sys = some r ∧ d'.sys = r.sys ∧ Revalued d.pool d'.pool ∧
      ∀ n ∈ l, (d'.pool.wpPool n).lastVal = r.seen n := by
  suffices hAll : ∃ r, check cfg typed l seen d.sys = some r ∧ d'.sys = r.sys ∧
      Revalued d.pool d'.pool ∧ (∀ n ∈ l, (d'.pool.wpPool n).lastVal = r.seen n) ∧
      ∀ m, m ∉ l → (d'.pool.wpPool m).lastVal = (d.pool.wpPool m).lastVal by
    obtain ⟨r, hCheck, hSys, hPool, hSeen, -⟩ := hAll
    exact ⟨r, hCheck, hSys, hPool, hSeen⟩
  induction l generalizing d seen ptr fuel with
  | nil =>
      obtain ⟨fuel, rfl⟩ := Nat.exists_eq_succ_of_ne_zero (Nat.ne_zero_of_lt hFuel)
      rw [linked_nil.1 hLink] at h
      cases h
      exact ⟨⟨seen, d'.sys⟩, rfl, rfl, Revalued.refl _, by simp, fun _ _ => rfl⟩
  | cons n l ih =>
      obtain ⟨fuel, rfl⟩ := Nat.exists_eq_succ_of_ne_zero (Nat.ne_zero_of_lt hFuel)
      obtain ⟨rfl, hRest⟩ := hLink
      obtain ⟨hn, hl⟩ := List.nodup_cons.1 hNodup
      have hNe {m : Fin nrWp} (hm : m ∈ l) : m ≠ n := fun hEq => hn (hEq ▸ hm)
      obtain ⟨val, s, hInspect, hTurn⟩ := watchLoop_some h
      have hTyped := (inspect_congr (hText n List.mem_cons_self) d.sys).symm.trans hInspect
      obtain ⟨hPool, hOther, hSelf, hSys⟩ := recordValue_spec (d := { d with sys := s }) n val
      rw [hValue n List.mem_cons_self] at hSys
      dsimp only at hTurn hPool hOther hSys
      generalize { d with sys := s }.recordValue n val = d₁ at hTurn hPool hOther hSelf hSys
      rw [← hPool.next] at hRest
      have hText' : ∀ m ∈ l, makeToken (d₁.pool.wpPool m).addrExpr = makeToken (typed m) := by
        intro m hm
        rw [hPool.text, hText m (List.mem_cons_of_mem n hm)]
      have hValue' : ∀ m ∈ l, (d₁.pool.wpPool m).lastVal = Function.update seen n val m := by
        intro m hm
        rw [hOther m (hNe hm), Function.update_of_ne (hNe hm),
          hValue m (List.mem_cons_of_mem n hm)]
      obtain ⟨r, hCheck, hSys', hPool', hSeen, hKeep⟩ :=
        ih hRest hl (Nat.lt_of_succ_lt_succ hFuel) hText' hValue' hTurn
      rw [hSys] at hCheck
      have hUnlooked := (check_state hCheck hl).1
      refine ⟨r, ?_, hSys', hPool.trans hPool', ?_, fun m hm => ?_⟩
      · rw [check, hTyped]
        exact hCheck
      · refine List.forall_mem_cons.2 ⟨?_, hSeen⟩
        rw [hKeep n hn, hSelf, hUnlooked n hn, Function.update_self]
      · obtain ⟨hmn, hml⟩ := not_or.1 (mt List.mem_cons.2 hm)
        rw [hKeep m hml, hOther m hmn]

end Loop

/-! ## Actions -/

section Actions

variable {cfg : Config δ} {ref : Ref ρ} {s s' : Session δ ρ}

theorem text_of_content {wp wp' : Wp} (h : wp.content = wp'.content) :
    wp.addrExpr = wp'.addrExpr := congrArg (·.2.1) h

theorem value_of_content {wp wp' : Wp} (h : wp.content = wp'.content) :
    wp.lastVal = wp'.lastVal := congrArg (·.2.2.1) h

/-- A debugger with fewer live watchpoints, none of them changed. -/
theorem Tracked.shrink (h : Tracked s) {d : Debugger δ ρ} {live free : List (Fin nrWp)}
    (hLists : Lists d.pool live free) (hSub : ∀ m ∈ live, m ∈ s.debugger.pool.live)
    (hSame : ∀ m, (d.pool.wpPool m).content = (s.debugger.pool.wpPool m).content) :
    Tracked { s with debugger := d } where
  lists := ⟨live, free, hLists⟩
  text m hm := by
    have hLive := hSub m (hLists.live_eq ▸ hm)
    rw [text_of_content (hSame m), h.text m hLive]
  value m hm := by
    have hLive := hSub m (hLists.live_eq ▸ hm)
    rw [value_of_content (hSame m), h.value m hLive]

/-- An action that leaves the pool alone. -/
theorem Tracked.of_pool (h : Tracked s) {d : Debugger δ ρ} (hPool : d.pool = s.debugger.pool) :
    Tracked { s with debugger := d } := by
  obtain ⟨live, free, hLists⟩ := h.lists
  refine h.shrink (hPool ▸ hLists) (fun m hm => ?_) (fun m => by rw [hPool])
  rwa [hLists.live_eq]

theorem instr_pool {d d' : Debugger δ ρ} {r : List Word × Bool}
    (h : d.instr cfg ref = some (d', r)) : d'.pool = d.pool := by
  unfold Debugger.instr at h
  split at h
  case isFalse => cases h
  case isTrue =>
    obtain ⟨⟨s₁, addrs⟩, -, h⟩ := Option.bind_eq_some_iff.1 h
    obtain ⟨⟨s₂, r', checked⟩, -, h⟩ := Option.bind_eq_some_iff.1 h
    cases h
    rfl

/-- `w` returns only when a node is free, and that node leads the list. -/
theorem cmdW_returns {p p' : WpPool} {live free : List (Fin nrWp)} {e : List Char} {val : Word}
    (hLists : Lists p live free) (h : p.cmdW e val = some p') :
    ∃ n rest, free = n :: rest ∧ Lists p' (n :: live) rest ∧
      (∀ m, m ≠ n → (p'.wpPool m).content = (p.wpPool m).content) ∧
      (p'.wpPool n).addrExpr = e.take 127 ∧ (p'.wpPool n).lastVal = val := by
  cases free with
  | nil =>
      have hFree : p.free = none := linked_nil.1 hLists.linkFree
      simp [WpPool.cmdW, WpPool.newWp, hFree] at h
  | cons n rest =>
      obtain ⟨p₁, hRun, hLists', hOther, hSelf⟩ := cmdW_spec hLists e val
      obtain rfl := Option.some.inj (h.symm.trans hRun)
      exact ⟨n, rest, rfl, hLists', hOther, congrArg (·.2.1) hSelf, congrArg (·.2.2.1) hSelf⟩

/-- `w` returns when its text has a value and a node is free. -/
theorem set_returns {live free : List (Fin nrWp)} {n : Fin nrWp} {e : List Char} {val : Word}
    {sys : Sys δ} (hLists : Lists s.debugger.pool live (n :: free))
    (hInspect : Debugger.inspect cfg s.debugger.sys e = some (val, sys)) :
    ∃ pool, s.debugger.pool.cmdW e val = some pool ∧
      s.step cfg ref (.w e) =
        some { s.note cfg (.w e) with
          debugger := { s.debugger with sys := sys, pool := pool } } := by
  obtain ⟨pool, hRun, -⟩ := cmdW_spec hLists e val
  refine ⟨pool, hRun, ?_⟩
  simp only [Session.step, Debugger.step, hInspect, Option.bind_eq_bind, Option.bind_some, hRun,
    Option.map_some]

/-- `w` with a text that is kept. -/
theorem set_tracked {e : List Char} (hTracked : Tracked s) (hKept : Kept e)
    (h : s.step cfg ref (.w e) = some s') : Sets cfg s s' e ∧ Tracked s' := by
  obtain ⟨d, hStep, rfl⟩ := Option.map_eq_some_iff.1 h
  obtain ⟨⟨val, sys⟩, hInspect, hStep⟩ := Option.bind_eq_some_iff.1 hStep
  obtain ⟨pool, hPool, hEq⟩ := Option.bind_eq_some_iff.1 hStep
  cases hEq
  obtain ⟨tokens, hTok, hStored⟩ := hKept
  obtain ⟨live, free, hLists⟩ := hTracked.lists
  obtain ⟨n, rest, rfl, hLists', hOther, hText, hVal⟩ := cmdW_returns hLists hPool
  have hSame : makeToken (e.take 127) = makeToken e := hStored.trans hTok.symm
  have hLive : s.debugger.pool.live = live := hLists.live_eq
  have hLive' : pool.live = n :: live := hLists'.live_eq
  have hn : n ∉ live := (List.nodup_cons.1 hLists'.nodup.of_append_left).1
  have hNe {m : Fin nrWp} (hm : m ∈ live) : m ≠ n := fun hEq => hn (hEq ▸ hm)
  have hFree : s.debugger.pool.free = some n := hLists.linkFree.1
  simp only [Session.note, hFree, hInspect]
  refine ⟨⟨fun hNone => ?_, fun _ => ⟨n, val, sys, ?_, ?_, hVal, fun m hm => ?_⟩⟩,
    ⟨⟨n :: live, rest, hLists'⟩, fun m hm => ?_, fun m hm => ?_⟩⟩
  · cases hTok.symm.trans hNone
  · rw [hLive']
    exact congrArg (n :: ·) hLive.symm
  · dsimp only
    rw [hText, inspect_congr hSame, hInspect]
  · exact hOther m (hNe (hLive ▸ hm))
  · dsimp only at hm ⊢
    rw [hLive'] at hm
    rcases List.mem_cons.1 hm with rfl | hm
    · rw [hText, Function.update_self, hSame]
    · rw [text_of_content (hOther m (hNe hm)), Function.update_of_ne (hNe hm),
        hTracked.text m (hLive ▸ hm)]
  · dsimp only at hm ⊢
    rw [hLive'] at hm
    rcases List.mem_cons.1 hm with rfl | hm
    · rw [hVal, Function.update_self]
    · rw [value_of_content (hOther m (hNe hm)), Function.update_of_ne (hNe hm),
        hTracked.value m (hLive ▸ hm)]

/-- The check behind an instruction. -/
theorem check_tracked (hTracked : Tracked s) (h : s.step cfg ref .watch = some s') :
    Checks cfg s s' ∧ Tracked s' := by
  obtain ⟨d, hLoop, rfl⟩ := Option.map_eq_some_iff.1 h
  obtain ⟨live, free, hLists⟩ := hTracked.lists
  have hLive : s.debugger.pool.live = live := hLists.live_eq
  have hNodup : live.Nodup := hLists.nodup.of_append_left
  have hLen := hLists.length
  have hText := hTracked.text
  have hValue := hTracked.value
  rw [hLive] at hText hValue
  obtain ⟨r, hCheck, hSys, hPool, hSeen⟩ :=
    watchLoop_check hLists.linkHead hNodup (by omega) hText hValue hLoop
  obtain ⟨-, -, hChanged, hUnchanged⟩ := check_state hCheck hNodup
  have hLists' := hPool.lists hLists
  have hLive' : d.pool.live = live := hLists'.live_eq
  rw [← hLive] at hCheck hChanged hUnchanged
  simp only [Session.note, hCheck]
  refine ⟨⟨⟨r, hCheck, rfl, hSys⟩, fun hNe => ?_, fun hEq => ?_⟩,
    ⟨⟨live, free, hLists'⟩, fun m hm => ?_, fun m hm => ?_⟩⟩
  · dsimp only
    rw [hSys, hChanged hNe]
  · dsimp only
    rw [hSys, hUnchanged hEq]
  · dsimp only at hm ⊢
    rw [hPool.text, hText m (hLive' ▸ hm)]
  · dsimp only at hm ⊢
    exact hSeen m (hLive' ▸ hm)

/-- One action of a session. -/
theorem step_consistent {a : Action δ} (hTracked : Tracked s) (hKept : ∀ e, a = .w e → Kept e)
    (h : s.step cfg ref a = some s') : Consistent cfg s s' a ∧ Tracked s' := by
  cases a with
  | w e => exact set_tracked hTracked (hKept e rfl) h
  | watch => exact check_tracked hTracked h
  | p e =>
    obtain ⟨d, hStep, rfl⟩ := Option.map_eq_some_iff.1 h
    obtain ⟨r, -, rfl⟩ := Option.map_eq_some_iff.1 hStep
    exact ⟨trivial, hTracked.of_pool rfl⟩
  | x n e =>
    obtain ⟨d, hStep, rfl⟩ := Option.map_eq_some_iff.1 h
    obtain ⟨r, -, hStep⟩ := Option.bind_eq_some_iff.1 hStep
    obtain ⟨sys, -, hEq⟩ := Option.bind_eq_some_iff.1 hStep
    cases hEq
    exact ⟨trivial, hTracked.of_pool rfl⟩
  | d num =>
    obtain ⟨d, hStep, rfl⟩ := Option.map_eq_some_iff.1 h
    obtain ⟨pool, hPool, rfl⟩ := Option.map_eq_some_iff.1 hStep
    obtain ⟨live, free, hLists⟩ := hTracked.lists
    rcases cmdD_spec hLists num with ⟨hSame, -⟩ | ⟨p', l₁, n, l₂, hLive, -, hRun, hLists', hSame⟩
    · exact ⟨trivial, hTracked.of_pool (Option.some.inj (hPool.symm.trans hSame))⟩
    · obtain rfl := Option.some.inj (hPool.symm.trans hRun)
      refine ⟨trivial, hTracked.shrink hLists' (fun m hm => ?_) hSame⟩
      rw [hLists.live_eq, hLive]
      rcases List.mem_append.1 hm with hm | hm
      · exact List.mem_append_left _ hm
      · exact List.mem_append_right _ (List.mem_cons_of_mem n hm)
  | instr =>
    obtain ⟨d, hStep, rfl⟩ := Option.map_eq_some_iff.1 h
    obtain ⟨⟨d', r⟩, hInstr, rfl⟩ := Option.map_eq_some_iff.1 hStep
    exact ⟨trivial, hTracked.of_pool (instr_pool hInstr)⟩
  | host dev state =>
    obtain ⟨d, hStep, rfl⟩ := Option.map_eq_some_iff.1 h
    cases hStep
    exact ⟨trivial, hTracked.of_pool rfl⟩

/-- What a run of kept texts leaves behind. -/
theorem run_tracked {acts : List (Action δ)} (hTracked : Tracked s)
    (hKept : ∀ e, Action.w e ∈ acts → Kept e) (h : s.run cfg ref acts = some s') :
    Tracked s' := by
  induction acts generalizing s with
  | nil =>
      cases h
      exact hTracked
  | cons a acts ih =>
      obtain ⟨s₁, hStep, hRest⟩ := Option.bind_eq_some_iff.1 h
      have hFirst := (step_consistent hTracked (fun e he => hKept e (by simp [he])) hStep).2
      exact ih hFirst (fun e he => hKept e (List.mem_cons_of_mem a he)) hRest

/-- Before the first watchpoint there is nothing to hold. -/
theorem tracked_init {p : WpPool} (h : s.debugger.pool = p.initWpPool) : Tracked s := by
  have hLists : Lists s.debugger.pool [] (List.finRange nrWp) := h ▸ init_lists p
  refine ⟨⟨_, _, hLists⟩, fun m hm => ?_, fun m hm => ?_⟩
  · rw [hLists.live_eq] at hm
    cases hm
  · rw [hLists.live_eq] at hm
    cases hm

/-- `w` takes a node, whatever becomes of its text. -/
theorem set_takes {live free : List (Fin nrWp)} {e : List Char}
    (hLists : Lists s.debugger.pool live free) (h : s.step cfg ref (.w e) = some s') :
    s'.debugger.pool ≠ s.debugger.pool := by
  obtain ⟨d, hStep, rfl⟩ := Option.map_eq_some_iff.1 h
  obtain ⟨⟨val, sys⟩, -, hStep⟩ := Option.bind_eq_some_iff.1 hStep
  obtain ⟨pool, hPool, hEq⟩ := Option.bind_eq_some_iff.1 hStep
  cases hEq
  obtain ⟨n, rest, -, hLists', -⟩ := cmdW_returns hLists hPool
  intro (hSame : pool = s.debugger.pool)
  rw [hSame] at hLists'
  have hLive : n :: live = live := hLists'.live_eq.symm.trans hLists.live_eq
  exact List.cons_ne_self n live hLive

end Actions

/-! ## Long sums -/

section Sum

/-- `1+1+...`, with `k` signs. -/
def onesTree : Nat → Exp
  | 0 => .num (digitNumeral .dec '1' one_mem_decDigits)
  | k + 1 => .bin .add (onesTree k) (.num (digitNumeral .dec '1' one_mem_decDigits))

def onesText (k : Nat) : List Char := (onesTree k).lexemes.flatMap Lexeme.text

theorem onesTree_grammatical (k : Nat) : (onesTree k).Grammatical := by
  cases k with
  | zero => trivial
  | succ k =>
      have hLeft : (onesTree k).Grammatical := onesTree_grammatical k
      refine ⟨⟨hLeft, ?_⟩, trivial, by decide⟩
      cases k with
      | zero => decide
      | succ k => exact Nat.le_refl 4

theorem onesTree_length (k : Nat) : (onesTree k).lexemes.length = 2 * k + 1 := by
  induction k with
  | zero => rfl
  | succ k ih =>
      rw [onesTree, Exp.lexemes, List.length_append, ih]
      rfl

theorem onesTree_fits {k : Nat} (hk : k < 32768) :
    (onesTree k).lexemes.length ≤ maxTokens := by
  rw [onesTree_length]
  show 2 * k + 1 ≤ 65536
  omega

theorem makeToken_ones {k : Nat} (hk : k < 32768) :
    ∃ tokens, makeToken (onesText k) = .ok (some tokens) :=
  ⟨_, makeToken_spells (spells_flatMap _) (follow_lexemes _) (onesTree_fits hk)⟩

theorem onesTree_value (pc : Word) (gpr : Nat → Word) (k : Nat) :
    (onesTree k).value pc gpr = BitVec.ofNat 32 (k + 1) := by
  induction k with
  | zero => rfl
  | succ k ih =>
      rw [onesTree, Exp.value, ih, BitVec.ofNat_add (k + 1) 1]
      rfl

theorem inspect_ones (cfg : Config δ) (s : Sys δ) {k : Nat} (hk : k < 32768) :
    Debugger.inspect cfg s (onesText k) = some (BitVec.ofNat 32 (k + 1), s) := by
  rw [Debugger.inspect, onesText, expr_spells (nemuTarget cfg) s (onesTree_grammatical k)
    (spells_flatMap _) (onesTree_fits hk), onesTree_value]

/-- The stored part of 65 ones has 64 of them. -/
theorem take_ones : (onesText 64).take 127 = onesText 63 := by decide +kernel

theorem makeToken_hash : makeToken ['#'] = .ok none := scan_none (firstMatch_eq_none (by decide)) []

end Sum

/-! ## Watchpoints over runs -/

/-- In a run from the initial pool whose watchpoints are set with kept texts,
every `w` adds a watchpoint with the value of its stored text, and every check
stops the machine exactly when the value of a text typed has changed.  A text
that is not accepted never leaves the pool as it was. -/
theorem watchpoints_consistent (cfg : Config δ) (ref : Ref ρ) :
    (∀ (s : Session δ ρ) (p : WpPool) (acts : List (Action δ)),
      s.debugger.pool = p.initWpPool → (∀ e, Action.w e ∈ acts → Kept e) →
      ∀ pre a post s₁ s₂, acts = pre ++ a :: post → s.run cfg ref pre = some s₁ →
        s₁.step cfg ref a = some s₂ → Consistent cfg s₁ s₂ a) ∧
    ∀ (s s' : Session δ ρ) (live free : List (Fin nrWp)) (e : List Char),
      Lists s.debugger.pool live free → makeToken e = .ok none →
      s.step cfg ref (.w e) = some s' → ¬ Sets cfg s s' e := by
  refine ⟨fun s p acts hInit hKept pre a post s₁ s₂ hSplit hPre hStep => ?_,
    fun s s' live free e hLists hNone hStep hSets => ?_⟩
  · subst hSplit
    have hPreKept : ∀ e, Action.w e ∈ pre → Kept e :=
      fun e he => hKept e (List.mem_append_left _ he)
    have hTracked := run_tracked (tracked_init hInit) hPreKept hPre
    exact (step_consistent hTracked (fun e he => hKept e (by simp [he])) hStep).1
  · exact set_takes hLists hStep (hSets.1 hNone)

/-- A stopped machine without watchpoints. -/
def freshSession : Session Devices Unit where
  debugger := { stoppedDebugger with pool := stoppedDebugger.pool.initWpPool }
  typed _ := []
  seen _ := 0

theorem freshSession_lists : Lists freshSession.debugger.pool [] (List.finRange nrWp) :=
  init_lists stoppedDebugger.pool

theorem freshSession_set {e : List Char} {val : Word} {sys : Sys Devices}
    (hInspect : Debugger.inspect defaultConfig stoppedSys e = some (val, sys)) :
    ∃ pool, freshSession.debugger.pool.cmdW e val = some pool ∧
      freshSession.step defaultConfig stillRef (.w e) =
        some { freshSession.note defaultConfig (.w e) with
          debugger := { freshSession.debugger with sys := sys, pool := pool } } := by
  have hLists := freshSession_lists
  rw [List.finRange_succ] at hLists
  exact set_returns hLists hInspect

theorem watchpoints_consistent_ones :
    (∃ s, freshSession.step defaultConfig stillRef (.w (onesText 0)) = some s ∧
      Consistent defaultConfig freshSession s (.w (onesText 0))) ∧
    ∃ s, freshSession.step defaultConfig stillRef (.w ['#']) = some s ∧
      ¬ Sets defaultConfig freshSession s ['#'] := by
  obtain ⟨tokens, hTok⟩ := makeToken_ones (k := 0) (by decide)
  have hKept : ∀ e, (Action.w e : Action Devices) ∈ [Action.w (onesText 0)] → Kept e := by
    intro e he
    cases List.mem_singleton.1 he
    exact kept_of_short hTok (by decide)
  obtain ⟨p, -, hStep⟩ :=
    freshSession_set (inspect_ones defaultConfig stoppedSys (k := 0) (by decide))
  have hHash : Debugger.inspect defaultConfig stoppedSys ['#'] = some (0, stoppedSys) := by
    rw [Debugger.inspect, expr_of_makeToken_none makeToken_hash]
  obtain ⟨q, -, hReject⟩ := freshSession_set hHash
  exact ⟨⟨_, hStep, (watchpoints_consistent defaultConfig stillRef).1 freshSession _ _ rfl hKept
      [] _ [] _ _ rfl rfl hStep⟩,
    ⟨_, hReject, (watchpoints_consistent defaultConfig stillRef).2 freshSession _ _ _ _
      freshSession_lists makeToken_hash hReject⟩⟩

/-- 65 ones are evaluated, 64 are stored. -/
theorem long_sum_inconsistent :
    ∃ s, freshSession.step defaultConfig stillRef (.w (onesText 64)) = some s ∧
      ¬ Consistent defaultConfig freshSession s (.w (onesText 64)) := by
  obtain ⟨tokens, hTok⟩ := makeToken_ones (k := 64) (by decide)
  obtain ⟨pool, hPool, hStep⟩ :=
    freshSession_set (inspect_ones defaultConfig stoppedSys (k := 64) (by decide))
  obtain ⟨n, rest, -, hLists, -, hText, hVal⟩ := cmdW_returns freshSession_lists hPool
  refine ⟨_, hStep, fun hSets => ?_⟩
  have hNone : makeToken (onesText 64) ≠ .ok none := by
    rw [hTok]
    simp
  obtain ⟨m, val, sys, hLive, hInspect, hLast, -⟩ := hSets.2 hNone
  dsimp only at hLive hInspect hLast
  have hFront : [n] = m :: freshSession.debugger.pool.live := hLists.live_eq.symm.trans hLive
  obtain ⟨rfl, -⟩ := List.cons.inj hFront
  rw [hText, take_ones, inspect_ones _ _ (by decide)] at hInspect
  obtain ⟨rfl, -⟩ := Prod.mk.inj (Option.some.inj hInspect)
  rw [hVal] at hLast
  revert hLast
  decide

end Riscv32.Sdb
