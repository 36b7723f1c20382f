import Mathlib.Logic.Relation
import Mathlib.Data.List.Basic

/-!
Shift-reduce automata as parser generators make them, with the values and the actions of
the symbols. What an automaton accepts is derived by its grammar, if a finite certificate
can be checked: for every state the symbol it is entered by and the states it is entered
from, such that what a reduction pops is always the right-hand side of its rule.
-/
namespace Starter.Lib.Lr
universe u

inductive Act (Q R : Type)
  | shift (q : Q)
  | reduce (r : R)
  | error
deriving DecidableEq

/-- The tables of an automaton over terminals `T`, nonterminals `N` and rules `R`, and the
    grammar that they are made from. `eof` ends every input. -/
structure Automaton (Q T N R : Type) where
  start : Q
  final : Q
  eof : T
  whole : N
  action : Q → T → Act Q R
  goto : Q → N → Q
  lhs : R → N
  arity : R → Nat
  rhs : R → List (T ⊕ N)

/-- Tokens with their kinds and values, and the actions of the rules: from the values of
    the right-hand side and the world that the actions share. -/
structure Semantics (T R K : Type) (V S : Type u) where
  kind : K → T
  value : K → V
  act : R → List V → S → V × S

variable {Q T N R K : Type} {V S : Type u}

/-- The symbols that are read, the last one first, each with the state it led to; the
    tokens to come; and the world. -/
structure Config (Q K : Type) (V S : Type u) where
  frames : List (Q × V)
  input : List K
  world : S

inductive Outcome (Q K : Type) (V S : Type u)
  | running (c : Config Q K V S)
  | accepted (s : S)
  | rejected
  | exhausted

section
variable (m : Automaton Q T N R)

/-- The state on top of the stack. -/
def Automaton.top : List (Q × V) → Q
  | [] => m.start
  | (q,_) :: _ => q

variable (sem : Semantics T R K V S) (room : Nat → Bool)

/-- A state is pushed with its value, if there is room for so many symbols. -/
def push (frames : List (Q × V)) (q : Q) (done : V × S) (input : List K) : Outcome Q K V S :=
  if room (frames.length + 1) then .running ⟨(q,done.1) :: frames,input,done.2⟩ else .exhausted

/-- What the automaton does on an action, with `k` for the next token. -/
def Automaton.perform (c : Config Q K V S) (k : K) (rest : List K) : Act Q R → Outcome Q K V S
  | .shift q => push room c.frames q (sem.value k,c.world) rest
  | .reduce r =>
    push room (c.frames.drop (m.arity r)) (m.goto (m.top (c.frames.drop (m.arity r))) (m.lhs r))
      (sem.act r ((c.frames.take (m.arity r)).reverse.map Prod.snd) c.world) (k :: rest)
  | .error => .rejected

variable [DecidableEq Q]

def Automaton.step (c : Config Q K V S) : Outcome Q K V S :=
  if m.top c.frames = m.final then .accepted c.world
  else
    match c.input with
    | [] => .rejected
    | k :: rest => m.perform sem room c k rest (m.action (m.top c.frames) (sem.kind k))

/-- The automaton, for at most so many steps. -/
def Automaton.run : Nat → Config Q K V S → Outcome Q K V S
  | 0, c => .running c
  | n+1, c =>
    match m.step sem room c with
    | .running next => Automaton.run n next
    | .accepted s => .accepted s
    | .rejected => .rejected
    | .exhausted => .exhausted

def Automaton.Moves (c next : Config Q K V S) : Prop := m.step sem room c = .running next

abbrev Automaton.Steps : Config Q K V S → Config Q K V S → Prop := Relation.ReflTransGen (m.Moves sem room)

/-- The automaton accepts the tokens and leaves the world as `s`. -/
def Automaton.Accepts (tokens : List K) (before s : S) : Prop :=
  ∃ c, m.Steps sem room ⟨[],tokens,before⟩ c ∧ m.step sem room c = .accepted s

end

section
variable {m : Automaton Q T N R} {sem : Semantics T R K V S} {room : Nat → Bool} [DecidableEq Q]
  {c next last : Config Q K V S} {s before : S} {tokens : List K}

/-- An automaton ends in one way. -/
theorem accepts_unique {s' : S} (one : m.Accepts sem room tokens before s) (two : m.Accepts sem room tokens before s') :
    s = s' := by
  obtain ⟨c,steps,ends⟩ := one
  obtain ⟨d,others,ends'⟩ := two
  suffices same : c = d by
    subst same
    rw [ends] at ends'
    cases ends'
    rfl
  have deterministic : ∀ {c d : Config Q K V S}, m.Steps sem room ⟨[],tokens,before⟩ c →
      m.Steps sem room ⟨[],tokens,before⟩ d → m.Steps sem room c d ∨ m.Steps sem room d c :=
    fun one two => Relation.ReflTransGen.total_of_right_unique
      (fun _ _ _ first second => Outcome.running.inj (first.symm.trans second)) one two
  rcases deterministic steps others with later | later
  · rcases Relation.ReflTransGen.cases_head later with same | ⟨e,first,_⟩
    · exact same
    · rw [Automaton.Moves,ends] at first
      cases first
  · rcases Relation.ReflTransGen.cases_head later with same | ⟨e,first,_⟩
    · exact same.symm
    · rw [Automaton.Moves,ends'] at first
      cases first

/-- A step that goes on is a shift or a reduction for which there is room. -/
theorem step_running (stepped : m.step sem room c = .running next) :
    m.top c.frames ≠ m.final ∧ room next.frames.length = true ∧ ∃ k rest, c.input = k :: rest ∧
      ((∃ q, m.action (m.top c.frames) (sem.kind k) = .shift q ∧ next = ⟨(q,sem.value k) :: c.frames,rest,c.world⟩) ∨
        ∃ r v after, m.action (m.top c.frames) (sem.kind k) = .reduce r ∧
          sem.act r ((c.frames.take (m.arity r)).reverse.map Prod.snd) c.world = (v,after) ∧
          next = ⟨(m.goto (m.top (c.frames.drop (m.arity r))) (m.lhs r),v) :: c.frames.drop (m.arity r),k :: rest,after⟩) := by
  have pushed : ∀ {frames : List (Q × V)} {q : Q} {done : V × S} {input : List K},
      push room frames q done input = .running next →
        room next.frames.length = true ∧ next = ⟨(q,done.1) :: frames,input,done.2⟩ := by
    intro frames q done input
    unfold push
    split
    · rename_i fits
      intro same
      cases same
      exact ⟨fits,rfl⟩
    · intro impossible
      cases impossible
  unfold Automaton.step at stepped
  split at stepped
  · cases stepped
  · rename_i running
    split at stepped
    · cases stepped
    · rename_i k rest input
      cases acted : m.action (m.top c.frames) (sem.kind k) with
      | shift q =>
        rw [acted] at stepped
        obtain ⟨fits,same⟩ := pushed stepped
        exact ⟨running,fits,k,rest,input,.inl ⟨q,acted,same⟩⟩
      | reduce r =>
        rw [acted] at stepped
        obtain ⟨fits,same⟩ := pushed stepped
        exact ⟨running,fits,k,rest,input,.inr ⟨r,_,_,acted,rfl,same⟩⟩
      | error =>
        rw [acted] at stepped
        cases stepped

theorem step_accepted : m.step sem room c = .accepted s ↔ m.top c.frames = m.final ∧ c.world = s := by
  constructor
  · unfold Automaton.step
    split
    · rename_i final
      rintro ⟨⟩
      exact ⟨final,rfl⟩
    · split
      · rintro ⟨⟩
      · unfold Automaton.perform push
        intro ends
        split at ends
        · split at ends <;> cases ends
        · split at ends <;> cases ends
        · cases ends
  · rintro ⟨final,rfl⟩
    exact if_pos final

theorem step_shift {frames : List (Q × V)} {q : Q} {k : K} {rest : List K} (running : m.top frames ≠ m.final)
    (acts : m.action (m.top frames) (sem.kind k) = .shift q) (fits : room (frames.length + 1) = true) :
    m.Moves sem room ⟨frames,k :: rest,s⟩ ⟨(q,sem.value k) :: frames,rest,s⟩ := by
  simp [Automaton.Moves,Automaton.step,Automaton.perform,push,running,acts,fits]

theorem step_reduce {frames popped : List (Q × V)} {r : R} {k : K} {rest : List K} {v : V} {after : S}
    (running : m.top (popped ++ frames) ≠ m.final) (acts : m.action (m.top (popped ++ frames)) (sem.kind k) = .reduce r)
    (length : popped.length = m.arity r) (does : sem.act r (popped.reverse.map Prod.snd) s = (v,after))
    (fits : room (frames.length + 1) = true) :
    m.Moves sem room ⟨popped ++ frames,k :: rest,s⟩ ⟨(m.goto (m.top frames) (m.lhs r),v) :: frames,k :: rest,after⟩ := by
  simp only [Automaton.Moves,Automaton.step,if_neg running,Automaton.perform,acts,← length,List.take_left',
    List.drop_left',push,does,if_pos fits]

/-- Only the first token of the input decides what the automaton does, and whether there is room for it. -/
theorem step_same {more : Nat → Bool} {frames : List (Q × V)} {k : K} {rest : List K}
    (moves : m.Moves sem room ⟨frames,k :: rest,s⟩ next) (fits : more next.frames.length = true) (others : List K) :
    (next.input = rest ∧ m.Moves sem more ⟨frames,k :: others,s⟩ ⟨next.frames,others,next.world⟩) ∨
      (next.input = k :: rest ∧ m.Moves sem more ⟨frames,k :: others,s⟩ ⟨next.frames,k :: others,next.world⟩) := by
  obtain ⟨running,_,k',rest',same,⟨q,acts,rfl⟩ | ⟨r,v,after,acts,does,rfl⟩⟩ := step_running moves
  · obtain ⟨rfl,rfl⟩ := List.cons.inj same
    exact .inl ⟨rfl,step_shift running acts fits⟩
  · obtain ⟨rfl,rfl⟩ := List.cons.inj same
    refine .inr ⟨rfl,?_⟩
    simp only [Automaton.Moves,Automaton.step,if_neg running,Automaton.perform,acts,push,does]
    exact if_pos fits

theorem step_room {more : Nat → Bool} (moves : m.Moves sem room c next) (fits : more next.frames.length = true) :
    m.Moves sem more c next := by
  obtain ⟨frames,input,world⟩ := c
  obtain ⟨_,_,k,rest,rfl,_⟩ := step_running moves
  obtain ⟨nextFrames,nextInput,nextWorld⟩ := next
  rcases step_same moves fits rest with ⟨rfl,same⟩ | ⟨rfl,same⟩
  · exact same
  · exact same

/-- Where there is more room the automaton does the same. -/
theorem step_more_room {more : Nat → Bool} (wider : ∀ n, room n = true → more n = true)
    (moves : m.Moves sem room c next) : m.Moves sem more c next :=
  step_room moves (wider _ (step_running moves).2.1)

/-- And with less, where there is enough for all that it comes to. -/
theorem steps_less_room {less : Nat → Bool} (fits : ∀ d, m.Steps sem room c d → less d.frames.length = true)
    (steps : m.Steps sem room c last) : m.Steps sem less c last := by
  induction steps with
  | refl => exact .refl
  | tail before moves ih => exact ih.tail (step_room moves (fits _ (before.tail moves)))

/-- The tokens are read one after the other. -/
theorem steps_reads (steps : m.Steps sem room c last) :
    ∃ n ≤ c.input.length, last.input = c.input.drop n ∧ ∀ i ≤ n, ∃ d, m.Steps sem room c d ∧ d.input = c.input.drop i := by
  induction steps with
  | refl =>
    refine ⟨0,Nat.zero_le _,rfl,fun i le => ⟨c,.refl,?_⟩⟩
    rw [Nat.le_zero.mp le]
    rfl
  | @tail middle last before moves ih =>
    obtain ⟨n,le,input,passed⟩ := ih
    obtain ⟨_,_,k,rest,there,⟨q,_,rfl⟩ | ⟨r,v,after,_,_,rfl⟩⟩ := step_running moves
    · have whole := input.symm.trans there
      have less : n < c.input.length := by
        by_contra most
        rw [List.drop_of_length_le (Nat.le_of_not_lt most)] at whole
        cases whole
      have later : rest = c.input.drop (n + 1) := by
        rw [← List.tail_drop,whole]
        rfl
      refine ⟨n + 1,less,later,fun i bound => ?_⟩
      rcases Nat.lt_or_eq_of_le bound with earlier | rfl
      · exact passed i (Nat.le_of_lt_succ earlier)
      · exact ⟨_,before.tail moves,later⟩
    · exact ⟨n,le,there.symm.trans input,passed⟩

/-- What the automaton does until it has read some tokens does not depend on those after them. -/
theorem steps_prefix {first rest : List K} (steps : m.Steps sem room c last) (whole : c.input = first ++ rest)
    (reads : last.input = rest) (others : List K) :
    ∃ d, m.Steps sem room ⟨c.frames,first ++ others,c.world⟩ d ∧ d.input = others := by
  induction steps using Relation.ReflTransGen.head_induction_on generalizing first with
  | refl =>
    have none : first = [] := by
      rw [reads] at whole
      exact List.self_eq_append_left.mp whole
    rw [none]
    exact ⟨_,.refl,rfl⟩
  | @head c next moves _ ih =>
    obtain ⟨frames,input,world⟩ := c
    cases first with
    | nil => exact ⟨_,.refl,rfl⟩
    | cons k first =>
      obtain rfl : input = k :: (first ++ rest) := whole
      rcases step_same moves (step_running moves).2.1 (first ++ others) with ⟨later,same⟩ | ⟨later,same⟩
      · obtain ⟨d,steps,ends⟩ := ih later
        exact ⟨d,.head same steps,ends⟩
      · have again : next.input = (k :: first) ++ rest := later
        obtain ⟨d,steps,ends⟩ := ih again
        exact ⟨d,.head same steps,ends⟩

/-- The end of a run does not depend on the room. -/
theorem accepts_more_room {more : Nat → Bool} (wider : ∀ n, room n = true → more n = true)
    (accepts : m.Accepts sem room tokens before s) : m.Accepts sem more tokens before s := by
  obtain ⟨c,steps,ends⟩ := accepts
  exact ⟨c,Relation.ReflTransGen.mono (fun _ _ => step_more_room wider) _ _ steps,
    step_accepted.mpr (step_accepted.mp ends)⟩

/-- What an automaton comes to with room for everything, it comes to with less if it accepts. -/
theorem accepts_passes (accepts : m.Accepts sem room tokens before s)
    (reaches : m.Steps sem (fun _ => true) ⟨[],tokens,before⟩ c) : m.Steps sem room ⟨[],tokens,before⟩ c := by
  obtain ⟨last,steps,ends⟩ := accepts
  suffices both : m.Steps sem room ⟨[],tokens,before⟩ c ∧ m.Steps sem room c last from both.1
  induction reaches with
  | refl => exact ⟨.refl,steps⟩
  | @tail c next _ moves ih =>
    obtain ⟨first,later⟩ := ih
    rcases Relation.ReflTransGen.cases_head later with rfl | ⟨next',moves',later'⟩
    · have running := (step_running moves).1
      exact absurd (step_accepted.mp ends).1 running
    · have free : m.Moves sem (fun _ => true) c next' := step_more_room (fun _ _ => rfl) moves'
      obtain rfl : next = next' := Outcome.running.inj (moves.symm.trans free)
      exact ⟨first.tail moves',later'⟩

/-- Then there is room for its symbols. -/
theorem accepts_room (accepts : m.Accepts sem room tokens before s)
    (reaches : m.Steps sem (fun _ => true) ⟨[],tokens,before⟩ c) (some : c.frames ≠ []) : room c.frames.length = true := by
  rcases Relation.ReflTransGen.cases_tail (accepts_passes accepts reaches) with same | ⟨_,_,moves⟩
  · rw [same] at some
    exact absurd rfl some
  · exact (step_running moves).2.1

/-- What holds of the tokens' values and of the world, and is kept by the actions, holds of the world that is left. -/
theorem accepts_keeps (good : V → Prop) (ok : S → Prop) (values : ∀ k ∈ tokens, good (sem.value k)) (start : ok before)
    (keeps : ∀ r vals s, (∀ v ∈ vals, good v) → ok s → good (sem.act r vals s).1 ∧ ok (sem.act r vals s).2)
    (accepts : m.Accepts sem room tokens before s) : ok s := by
  obtain ⟨last,steps,ends⟩ := accepts
  suffices all : (∀ f ∈ last.frames, good f.2) ∧ (∀ k ∈ last.input, k ∈ tokens) ∧ ok last.world by
    rw [← (step_accepted.mp ends).2]
    exact all.2.2
  clear ends
  induction steps with
  | refl => exact ⟨by simp,fun _ member => member,start⟩
  | @tail c next _ moves ih =>
    obtain ⟨goods,inputs,world⟩ := ih
    obtain ⟨_,_,k,rest,input,⟨q,_,rfl⟩ | ⟨r,v,after,_,does,rfl⟩⟩ := step_running moves
    · rw [input,List.forall_mem_cons] at inputs
      exact ⟨List.forall_mem_cons.mpr ⟨values k inputs.1,goods⟩,inputs.2,world⟩
    · have popped : ∀ v ∈ (c.frames.take (m.arity r)).reverse.map Prod.snd, good v := by
        intro v member
        obtain ⟨f,taken,rfl⟩ := List.mem_map.mp member
        exact goods f (List.mem_of_mem_take (List.mem_reverse.mp taken))
      obtain ⟨made,left⟩ := keeps r _ c.world popped world
      rw [does] at made left
      refine ⟨List.forall_mem_cons.mpr ⟨made,fun f member => goods f (List.mem_of_mem_drop member)⟩,?_,left⟩
      rw [← input]
      exact inputs

end

section
variable (m : Automaton Q T N R)

/-- The words that a list of symbols derives. -/
inductive Automaton.Derives (kind : K → T) : List (T ⊕ N) → List K → Prop
  | nil : Derives kind [] []
  | token (k : K) {symbols : List (T ⊕ N)} {word : List K} (rest : Derives kind symbols word) :
    Derives kind (.inl (kind k) :: symbols) (k :: word)
  | rule (r : R) {symbols : List (T ⊕ N)} {part word : List K} (body : Derives kind (m.rhs r) part)
    (rest : Derives kind symbols word) : Derives kind (.inr (m.lhs r) :: symbols) (part ++ word)

/-- For every state the symbol that it is entered by and the states that it is entered from. -/
structure Certificate (Q T N : Type) where
  sym : Q → T ⊕ N
  entered : Q → List Q

variable [DecidableEq Q] [DecidableEq T] [DecidableEq N] (cert : Certificate Q T N)

/-- Wherever the stack has `q` on top the symbols can be popped, the first one first, and
    what is then on top is `ok`. -/
def Automaton.pops : List (T ⊕ N) → Q → (Q → Bool) → Bool
  | [], q, ok => ok q
  | x :: symbols, q, ok =>
    decide (q ≠ m.start) && decide (cert.sym q = x) && (cert.entered q).all fun p => Automaton.pops symbols p ok

def Automaton.enters (p : Q) (x : T ⊕ N) (q : Q) : Bool := decide (cert.sym q = x) && decide (p ∈ cert.entered q)

/-- The certificate agrees with the action of a state on a token. -/
def Automaton.agrees (p : Q) (t : T) : Bool :=
  match m.action p t with
  | .shift q => Automaton.enters cert p (.inl t) q
  | .reduce r =>
    m.pops cert (m.rhs r).reverse p fun base => Automaton.enters cert base (.inr (m.lhs r)) (m.goto base (m.lhs r))
  | .error => true

structure Automaton.Certified : Prop where
  agrees : ∀ p t, p ≠ m.final → m.agrees cert p t = true
  arity : ∀ r, m.arity r = (m.rhs r).length
  final : m.pops cert [.inl m.eof,.inr m.whole] m.final (fun base => decide (base = m.start)) = true
  start : cert.entered m.start = []

/-- The stack is a path of the automaton, and its symbols derive the word. -/
inductive Automaton.Spells (kind : K → T) : List (Q × V) → List K → Prop
  | nil : Spells kind [] []
  | cons {frames : List (Q × V)} {before word : List K} {q : Q} (v : V) (spells : Spells kind frames before)
    (entered : m.top frames ∈ cert.entered q) (derives : m.Derives kind [cert.sym q] word) :
    Spells kind ((q,v) :: frames) (before ++ word)

end

section
variable {m : Automaton Q T N R} {kind : K → T} {symbols others : List (T ⊕ N)} {word more : List K}

theorem derives_append (one : m.Derives kind symbols word) (two : m.Derives kind others more) :
    m.Derives kind (symbols ++ others) (word ++ more) := by
  induction one with
  | nil => exact two
  | token k _ ih => exact .token k ih
  | rule r body _ _ ih =>
    rw [List.append_assoc]
    exact .rule r body ih

theorem derives_split (derives : m.Derives kind (symbols ++ others) word) :
    ∃ part rest, word = part ++ rest ∧ m.Derives kind symbols part ∧ m.Derives kind others rest := by
  generalize whole : symbols ++ others = all at derives
  induction derives generalizing symbols with
  | nil =>
    obtain ⟨rfl,rfl⟩ := List.append_eq_nil_iff.mp whole
    exact ⟨[],[],rfl,.nil,.nil⟩
  | token k rest ih =>
    cases symbols with
    | nil =>
      obtain rfl : others = _ := whole
      exact ⟨[],_,rfl,.nil,.token k rest⟩
    | cons x symbols =>
      obtain ⟨rfl,later⟩ := List.cons.inj whole
      obtain ⟨part,after,rfl,one,two⟩ := ih later
      exact ⟨k :: part,after,rfl,.token k one,two⟩
  | rule r body rest _ ih =>
    cases symbols with
    | nil =>
      obtain rfl : others = _ := whole
      exact ⟨[],_,rfl,.nil,.rule r body rest⟩
    | cons x symbols =>
      obtain ⟨rfl,later⟩ := List.cons.inj whole
      obtain ⟨part,after,rfl,one,two⟩ := ih later
      exact ⟨_ ++ part,after,(List.append_assoc ..).symm,.rule r body one,two⟩

/-- Only the kinds of the tokens matter. -/
theorem derives_kinds {K' : Type} {kind' : K' → T} {word' : List K'} (derives : m.Derives kind symbols word)
    (kinds : word'.map kind' = word.map kind) : m.Derives kind' symbols word' := by
  induction derives generalizing word' with
  | nil =>
    obtain rfl : word' = [] := List.map_eq_nil_iff.mp kinds
    exact .nil
  | token k _ ih =>
    obtain ⟨k',rest',rfl,same,later⟩ := List.map_eq_cons_iff.mp kinds
    rw [← same]
    exact .token k' (ih later)
  | rule r body _ ihBody ihRest =>
    rw [List.map_append] at kinds
    obtain ⟨part',rest',rfl,inPart,inRest⟩ := List.map_eq_append_iff.mp kinds
    exact .rule r (ihBody inPart) (ihRest inRest)

theorem derives_token {t : T} (derives : m.Derives kind (.inl t :: symbols) word) :
    ∃ k rest, kind k = t ∧ word = k :: rest ∧ m.Derives kind symbols rest := by
  cases derives with
  | token k rest => exact ⟨k,_,rfl,rfl,rest⟩

/-- The word of a list of symbols, in parts for which the symbols hold. -/
def Along (holds : T ⊕ N → List K → Prop) : List (T ⊕ N) → List K → Prop
  | [], word => word = []
  | x :: symbols, word => ∃ part rest, word = part ++ rest ∧ holds x part ∧ Along holds symbols rest

/-- What holds of the words of every symbol, if each rule keeps it. -/
theorem derives_along {holds : T ⊕ N → List K → Prop} (token : ∀ k, holds (.inl (kind k)) [k])
    (rule : ∀ r word, Along holds (m.rhs r) word → holds (.inr (m.lhs r)) word)
    (derives : m.Derives kind symbols word) : Along holds symbols word := by
  induction derives with
  | nil => exact rfl
  | token k _ ih => exact ⟨[k],_,rfl,token k,ih⟩
  | rule r _ _ ihBody ihRest => exact ⟨_,_,rfl,rule r _ ihBody,ihRest⟩

variable [DecidableEq Q] [DecidableEq T] [DecidableEq N] {cert : Certificate Q T N} {sem : Semantics T R K V S}
  {room : Nat → Bool} {frames : List (Q × V)}

/-- What can be popped is a part of the word that the symbols derive. -/
theorem pops_spells {ok : Q → Bool} (pops : m.pops cert symbols (m.top frames) ok = true)
    (spells : m.Spells cert kind frames word) :
    ∃ before part, word = before ++ part ∧ m.Spells cert kind (frames.drop symbols.length) before ∧
      m.Derives kind symbols.reverse part ∧ ok (m.top (frames.drop symbols.length)) = true := by
  induction symbols generalizing frames word with
  | nil => exact ⟨word,[],(List.append_nil word).symm,spells,.nil,pops⟩
  | cons x symbols ih =>
    simp only [Automaton.pops,Bool.and_eq_true,decide_eq_true_eq,List.all_eq_true] at pops
    obtain ⟨⟨notStart,entry⟩,later⟩ := pops
    cases spells with
    | nil => exact absurd rfl notStart
    | cons v spells entered derives =>
      obtain ⟨before,part,rfl,under,derived,good⟩ := ih (later _ entered) spells
      rw [List.reverse_cons]
      refine ⟨before,part ++ _,List.append_assoc ..,under,derives_append derived ?_,good⟩
      rw [← entry]
      exact derives

/-- A step keeps the stack a path whose symbols derive the tokens that are read. -/
theorem step_spells {c next : Config Q K V S} (certified : m.Certified cert) (moves : m.Moves sem room c next)
    (spells : m.Spells cert sem.kind c.frames word) :
    ∃ after, after ++ next.input = word ++ c.input ∧ m.Spells cert sem.kind next.frames after := by
  obtain ⟨frames,input,world⟩ := c
  obtain ⟨running,fits,k,rest,rfl,⟨q,acts,rfl⟩ | ⟨r,v,after,acts,does,rfl⟩⟩ := step_running moves
  · have agrees := certified.agrees (m.top frames) (sem.kind k) running
    simp only [Automaton.agrees,acts,Automaton.enters,Bool.and_eq_true,decide_eq_true_eq] at agrees
    obtain ⟨entry,entered⟩ := agrees
    refine ⟨word ++ [k],by simp,.cons _ spells entered ?_⟩
    rw [entry]
    exact .token k .nil
  · have agrees := certified.agrees (m.top frames) (sem.kind k) running
    simp only [Automaton.agrees,acts] at agrees
    obtain ⟨before,part,rfl,under,derives,enters⟩ := pops_spells agrees spells
    rw [List.length_reverse,← certified.arity] at under enters
    rw [List.reverse_reverse] at derives
    simp only [Automaton.enters,Bool.and_eq_true,decide_eq_true_eq] at enters
    refine ⟨before ++ part,rfl,.cons v under enters.2 ?_⟩
    rw [enters.1]
    have whole := Automaton.Derives.rule r derives .nil
    rwa [List.append_nil] at whole

theorem steps_spells {c last : Config Q K V S} (certified : m.Certified cert) (steps : m.Steps sem room c last)
    (spells : m.Spells cert sem.kind c.frames word) :
    ∃ after, after ++ last.input = word ++ c.input ∧ m.Spells cert sem.kind last.frames after := by
  induction steps with
  | refl => exact ⟨word,rfl,spells⟩
  | tail _ moves ih =>
    obtain ⟨middle,same,spelt⟩ := ih
    obtain ⟨after,same',spelt'⟩ := step_spells certified moves spelt
    exact ⟨after,same'.trans same,spelt'⟩

/-- When an automaton accepts, it has read the whole input, and derived it. -/
theorem accepted_input {tokens : List K} {e : K} {before s : S} {c : Config Q K V S} (certified : m.Certified cert)
    (inner : ∀ k ∈ tokens, sem.kind k ≠ m.eof) (steps : m.Steps sem room ⟨[],tokens ++ [e],before⟩ c)
    (ends : m.step sem room c = .accepted s) : c.input = [] ∧ m.Derives sem.kind [.inr m.whole] tokens := by
  obtain ⟨word,same,spells⟩ := steps_spells certified steps .nil
  have pops := certified.final
  rw [← (step_accepted.mp ends).1] at pops
  obtain ⟨first,part,rfl,under,derives,atStart⟩ := pops_spells pops spells
  rw [decide_eq_true_eq] at atStart
  generalize c.frames.drop _ = frames at under atStart
  have bottom : first = [] := by
    cases under with
    | nil => rfl
    | @cons _ _ _ q v _ entered _ =>
      obtain rfl : q = m.start := atStart
      rw [certified.start] at entered
      cases entered
  subst bottom
  obtain ⟨u,v,rfl,whole,ended⟩ := derives_split (show m.Derives sem.kind ([.inr m.whole] ++ [.inl m.eof]) part from derives)
  obtain ⟨k,rest,isEof,rfl,nothing⟩ := derives_token ended
  cases nothing
  have split : u ++ k :: c.input = tokens ++ [e] := by simpa using same
  rcases List.append_eq_append_iff.mp split with ⟨more,rfl,later⟩ | ⟨more,rfl,later⟩
  · cases more with
    | nil => exact ⟨(List.cons.inj later).2,by simpa using whole⟩
    | cons x more =>
      obtain ⟨rfl,_⟩ := List.cons.inj later
      exact absurd isEof (inner k (List.mem_append_right _ List.mem_cons_self))
  · cases more with
    | nil => exact ⟨(List.cons.inj later).2.symm,by simpa using whole⟩
    | cons x more => simp at later

/-- Only derived words are accepted. -/
theorem accepts_derives {tokens : List K} {e : K} {before s : S} (certified : m.Certified cert)
    (inner : ∀ k ∈ tokens, sem.kind k ≠ m.eof) (accepts : m.Accepts sem room (tokens ++ [e]) before s) :
    m.Derives sem.kind [.inr m.whole] tokens := by
  obtain ⟨c,steps,ends⟩ := accepts
  exact (accepted_input certified inner steps ends).2

/-- What a reduction pops are the symbols of its rule. -/
theorem pops_symbols {ok : Q → Bool} (pops : m.pops cert symbols (m.top frames) ok = true)
    (spells : m.Spells cert kind frames word) : (frames.take symbols.length).map (fun f => cert.sym f.1) = symbols := by
  induction symbols generalizing frames word with
  | nil => rfl
  | cons x symbols ih =>
    simp only [Automaton.pops,Bool.and_eq_true,decide_eq_true_eq,List.all_eq_true] at pops
    obtain ⟨⟨notStart,entry⟩,later⟩ := pops
    cases spells with
    | nil => exact absurd rfl notStart
    | cons v spells entered derives =>
      rw [List.length_cons,List.take_succ_cons,List.map_cons,ih (later _ entered) spells]
      exact congrArg (· :: symbols) entry

/-- When an automaton accepts, the stack has the whole and the end of the input. -/
theorem final_symbols {c : Config Q K V S} {s before : S} {tokens : List K} (certified : m.Certified cert)
    (steps : m.Steps sem room ⟨[],tokens,before⟩ c) (ends : m.step sem room c = .accepted s) :
    c.frames.map (fun f => cert.sym f.1) = [.inl m.eof,.inr m.whole] := by
  obtain ⟨word,_,spells⟩ := steps_spells certified steps .nil
  have pops := certified.final
  rw [← (step_accepted.mp ends).1] at pops
  have symbols := pops_symbols pops spells
  obtain ⟨first,part,_,under,_,atStart⟩ := pops_spells pops spells
  rw [decide_eq_true_eq] at atStart
  have bottom : c.frames.drop 2 = [] := by
    generalize c.frames.drop [Sum.inl m.eof,Sum.inr m.whole].length = rest at under atStart ⊢
    cases under with
    | nil => rfl
    | @cons _ _ _ q v _ entered _ =>
      obtain rfl : q = m.start := atStart
      rw [certified.start] at entered
      cases entered
  rw [← List.take_append_drop 2 c.frames,bottom,List.append_nil]
  exact symbols

/-- One automaton takes the same steps with two kinds of values, and what is related stays so
    if every token and every rule keeps it. -/
theorem accepts_lockstep {V' S' : Type u} {sem' : Semantics T R K V' S'} {s before : S} {before' : S'} {tokens : List K}
    (certified : m.Certified cert) (kinds : sem'.kind = sem.kind) (Rel : List ((T ⊕ N) × V × V') → S → S' → Prop)
    (start : Rel [] before before')
    (token : ∀ stack s s', ∀ k ∈ tokens, Rel stack s s' → Rel ((.inl (sem.kind k),sem.value k,sem'.value k) :: stack) s s')
    (rule : ∀ r (popped stack : List ((T ⊕ N) × V × V')) s s', popped.map Prod.fst = m.rhs r → Rel (popped.reverse ++ stack) s s' →
      Rel ((.inr (m.lhs r),(sem.act r (popped.map (·.2.1)) s).1,(sem'.act r (popped.map (·.2.2)) s').1) :: stack)
        (sem.act r (popped.map (·.2.1)) s).2 (sem'.act r (popped.map (·.2.2)) s').2)
    (accepts : m.Accepts sem room tokens before s) :
    ∃ s' w w' v v', m.Accepts sem' room tokens before' s' ∧ Rel [(.inl m.eof,w,w'),(.inr m.whole,v,v')] s s' := by
  obtain ⟨last,steps,ends⟩ := accepts
  suffices follows : ∃ both : List (Q × V × V'), ∃ s', last.frames = both.map (fun x => (x.1,x.2.1)) ∧
      m.Steps sem' room ⟨[],tokens,before'⟩ ⟨both.map (fun x => (x.1,x.2.2)),last.input,s'⟩ ∧
      Rel (both.map fun x => (cert.sym x.1,x.2)) last.world s' by
    obtain ⟨both,s',frames,steps',related⟩ := follows
    have symbols := final_symbols certified steps ends
    obtain ⟨atFinal,rfl⟩ := step_accepted.mp ends
    rw [frames,List.map_map] at symbols
    obtain ⟨⟨p,w,w'⟩,both,rfl,eof,symbols⟩ := List.map_eq_cons_iff.mp symbols
    obtain ⟨⟨q,v,v'⟩,both,rfl,whole,symbols⟩ := List.map_eq_cons_iff.mp symbols
    obtain rfl : both = [] := List.map_eq_nil_iff.mp symbols
    rw [frames] at atFinal
    rw [List.map_cons,List.map_cons,List.map_nil] at related
    refine ⟨s',w,w',v,v',⟨_,steps',step_accepted.mpr ⟨atFinal,rfl⟩⟩,?_⟩
    rw [← eof,← whole]
    exact related
  clear ends
  induction steps with
  | refl => exact ⟨[],before',rfl,.refl,start⟩
  | @tail c next reached moves ih =>
    obtain ⟨both,s',frames,steps',related⟩ := ih
    have same : ∀ both : List (Q × V × V'), m.top (both.map fun x => (x.1,x.2.1)) = m.top (both.map fun x => (x.1,x.2.2)) := by
      rintro (_ | _) <;> rfl
    obtain ⟨word,read,spells⟩ := steps_spells certified reached .nil
    obtain ⟨running,fits,k,rest,input,⟨q,acts,rfl⟩ | ⟨r,v,after,acts,does,rfl⟩⟩ := step_running moves
    · have agrees := certified.agrees _ (sem.kind k) running
      simp only [Automaton.agrees,acts,Automaton.enters,Bool.and_eq_true,decide_eq_true_eq] at agrees
      refine ⟨(q,sem.value k,sem'.value k) :: both,s',by rw [frames]; rfl,steps'.tail ?_,?_⟩
      · rw [input]
        refine step_shift ?_ ?_ (by simpa [frames] using fits)
        · rwa [← same,← frames]
        · rw [← same,← frames,kinds]
          exact acts
      · rw [List.map_cons,agrees.1]
        refine token _ _ _ k ?_ related
        have all : word ++ k :: rest = tokens := by rwa [input] at read
        rw [← all]
        exact List.mem_append_right word List.mem_cons_self
    · have agrees := certified.agrees _ (sem.kind k) running
      simp only [Automaton.agrees,acts] at agrees
      have symbols := pops_symbols agrees spells
      obtain ⟨_,_,_,_,_,enters⟩ := pops_spells agrees spells
      rw [List.length_reverse,← certified.arity] at enters symbols
      simp only [Automaton.enters,Bool.and_eq_true,decide_eq_true_eq] at enters
      have popped : (((both.take (m.arity r)).map fun x => (cert.sym x.1,x.2)).reverse).map Prod.fst = m.rhs r := by
        rw [frames,← List.map_take,List.map_map] at symbols
        rw [List.map_reverse,List.map_map]
        exact List.reverse_eq_iff.mpr symbols
      have made := rule r _ ((both.drop (m.arity r)).map fun x => (cert.sym x.1,x.2)) c.world s' popped (by
        rwa [List.reverse_reverse,← List.map_append,List.take_append_drop])
      have values : (((both.take (m.arity r)).map fun x => (cert.sym x.1,x.2)).reverse).map (·.2.1) =
          (c.frames.take (m.arity r)).reverse.map Prod.snd := by
        rw [frames,← List.map_take,List.map_reverse,List.map_reverse,List.map_map,List.map_map]
        rfl
      have values' : (((both.take (m.arity r)).map fun x => (cert.sym x.1,x.2)).reverse).map (·.2.2) =
          ((both.map fun x => (x.1,x.2.2)).take (m.arity r)).reverse.map Prod.snd := by
        rw [← List.map_take,List.map_reverse,List.map_reverse,List.map_map,List.map_map]
        rfl
      have base : m.top (c.frames.drop (m.arity r)) = m.top ((both.map fun x => (x.1,x.2.2)).drop (m.arity r)) := by
        rw [frames,← List.map_drop,← List.map_drop]
        exact same _
      obtain ⟨v',after',does'⟩ : ∃ v' after', sem'.act r
          (((both.map fun x => (x.1,x.2.2)).take (m.arity r)).reverse.map Prod.snd) s' = (v',after') := ⟨_,_,rfl⟩
      rw [values,values',does,does'] at made
      refine ⟨(m.goto (m.top (c.frames.drop (m.arity r))) (m.lhs r),v,v') :: both.drop (m.arity r),after',?_,steps'.tail ?_,?_⟩
      · rw [frames,← List.map_drop]
        rfl
      · simp only [Automaton.Moves,Automaton.step,← same,← frames,if_neg running,input,kinds,acts,Automaton.perform,push,← base,does']
        rw [if_pos (by simpa [frames] using fits),← List.map_drop]
        rfl
      · rw [List.map_cons,enters.1]
        exact made

end

end Starter.Lib.Lr
