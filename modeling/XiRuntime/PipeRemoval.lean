import XiRuntime.PipeRouting
import XiRuntime.Runs

namespace XiRuntime

variable {Message : Type}

theorem nearest_apart {able : Filter Message → Bool} {fs : List (Filter Message)} {a : Nat}
    (apart : ∀ f ∈ fs, f.address ≠ a) : nearest able fs ≠ some a := by
  intro found
  obtain ⟨f, hf, same⟩ := nearest_mem found
  exact apart f hf same

/-- Filters that are left out do not matter when the nearest one stays. -/
theorem nearest_filter {able : Filter Message → Bool} (keep : Nat → Bool) {fs : List (Filter Message)}
    (h : ∀ a, nearest able fs = some a → keep a = true) :
    nearest able (fs.filter (fun f => keep f.address)) = nearest able fs := by
  induction fs with
  | nil => rfl
  | cons f fs ih =>
    rw [nearest_cons] at h ⊢
    rw [List.filter_cons]
    by_cases on : able f = true
    · have stays : keep f.address = true := h f.address (by rw [if_pos on])
      rw [if_pos stays, nearest_cons, if_pos on, if_pos on]
    · rw [if_neg on] at h ⊢
      split
      · rw [nearest_cons, if_neg on, ih h]
      · exact ih h

/-- A link past a filter that is taken out goes where that filter's own link goes. -/
theorem nearest_skip {able : Filter Message → Bool} {x : Filter Message}
    {near far : List (Filter Message)} (apart : ∀ f ∈ near ++ far, f.address ≠ x.address)
    {link : Option Nat} (own : able x = true → link = nearest able far) :
    (if nearest able (near ++ x :: far) = some x.address then link
      else nearest able (near ++ x :: far)) = nearest able (near ++ far) := by
  rw [nearest_append, nearest_append, nearest_cons]
  rcases found : nearest able near with _ | a
  · by_cases on : able x = true
    · simp [on, own on]
    · simp only [on, Option.none_or, if_false, Bool.false_eq_true]
      rw [if_neg (nearest_apart fun f hf => apart f (List.mem_append_right _ hf))]
  · have other : a ≠ x.address := by
      obtain ⟨f, hf, rfl⟩ := nearest_mem found
      exact apart f (List.mem_append_left _ hf)
    simp [other]

theorem filter_apart {fs : List (Filter Message)} {a : Nat} (apart : ∀ f ∈ fs, f.address ≠ a) :
    fs.filter (fun f => decide (f.address ≠ a)) = fs :=
  List.filter_eq_self.mpr (fun f hf => decide_eq_true (apart f hf))

/-- The nearest filter is this one, so it is able and none is before it. -/
theorem nearest_here {able : Filter Message → Bool} {x : Filter Message}
    {near far : List (Filter Message)} (apart : ∀ f ∈ near ++ far, f.address ≠ x.address)
    (here : nearest able (near ++ x :: far) = some x.address) :
    nearest able near = none ∧ able x = true := by
  rw [nearest_append] at here
  have nothing : nearest able near = none := by
    rcases found : nearest able near with _ | a
    · rfl
    · rw [found, Option.some_or] at here
      exact absurd (found.trans here) (nearest_apart fun f hf => apart f (List.mem_append_left _ hf))
  refine ⟨nothing, ?_⟩
  by_contra off
  rw [nothing, Option.none_or, nearest_cons, if_neg off] at here
  exact nearest_apart (fun f hf => apart f (List.mem_append_right _ hf)) here

/-- The head is moved off a filter that is taken out, onto where that filter's link goes: what
is left out anyway, `away`, must not be there. -/
theorem nearest_moves {able : Filter Message → Bool} {away : List Nat} {x : Filter Message}
    {near far : List (Filter Message)} {staying : List (Filter Message)} {link : Option Nat}
    (apart : ∀ f ∈ near ++ far, f.address ≠ x.address)
    (kept : (near ++ x :: far).filter (fun f => decide (f.address ∉ away)) = staying)
    (own : link = if able x then nearest able far else none)
    (sound : nearest able staying = some x.address → ∀ a, link = some a → a ∉ away) :
    (if nearest able staying = some x.address then link else nearest able staying) =
      nearest able (staying.filter (fun f => decide (f.address ≠ x.address))) := by
  by_cases here : nearest able staying = some x.address
  · have stays : x.address ∉ away := by
      obtain ⟨f, hf, same⟩ := nearest_mem here
      rw [← kept] at hf
      rw [← same]
      exact of_decide_eq_true (List.mem_filter.mp hf).2
    have parts : staying = near.filter (fun f => decide (f.address ∉ away)) ++
        x :: far.filter (fun f => decide (f.address ∉ away)) := by
      rw [← kept, List.filter_append, List.filter_cons, if_pos (decide_eq_true stays)]
    have apart' : ∀ f ∈ near.filter (fun f => decide (f.address ∉ away)) ++
        far.filter (fun f => decide (f.address ∉ away)), f.address ≠ x.address := by
      rw [← List.filter_append]
      exact fun f hf => apart f (List.mem_filter.mp hf).1
    obtain ⟨nothing, on⟩ := nearest_here apart' (parts ▸ here)
    rw [if_pos on] at own
    rw [if_pos here, parts, List.filter_append, List.filter_cons, if_neg (by simp),
      ← List.filter_append, filter_apart apart', nearest_append, nothing, Option.none_or, own]
    refine (nearest_filter (fun a => decide (a ∉ away)) ?_).symm
    intro a ha
    exact decide_eq_true (sound here a (own.trans ha))
  · rw [if_neg here]
    refine (nearest_filter (fun a => decide (a ≠ x.address)) ?_).symm
    intro a ha
    exact decide_eq_true (fun same => here (same ▸ ha))

/-- Contexts before the one that is taken out. -/
theorem selected_unlink_before {before part far : List (Filter Message)} {x : Filter Message}
    {read write : Message → Option Nat}
    (apart : ∀ f ∈ before ++ (part ++ far), f.address ≠ x.address)
    (own : ∀ m, x.reads m = true → read m = nearest (·.reads m) far) :
    (selected before part (x :: far)).map (.unlink x.address read write) =
      selected before part far := by
  induction part generalizing before with
  | nil => rfl
  | cons f part ih =>
    have rest : ∀ g ∈ before ++ [f] ++ (part ++ far), g.address ≠ x.address := by
      intro g hg
      exact apart g (by simpa [List.append_assoc] using hg)
    have same : (selectedContext before f (part ++ x :: far)).unlink x.address read write =
        selectedContext before f (part ++ far) := by
      unfold selectedContext Context.unlink
      simp only [Context.mk.injEq, true_and]
      constructor
      · funext m
        by_cases on : f.reads m = true
        · simp only [on, if_true]
          exact nearest_skip (fun g hg => apart g (by simp at hg ⊢; tauto)) (own m)
        · simp [on]
      · funext m
        by_cases on : f.writes m = true
        · simp only [on, if_true]
          rw [if_neg (nearest_apart fun g hg =>
            apart g (List.mem_append_left _ (List.mem_reverse.mp hg)))]
        · simp [on]
    simp only [selected, List.map_cons, same, ih rest]

/-- Contexts behind the one that is taken out. -/
theorem selected_unlink_after {near between part after : List (Filter Message)} {x : Filter Message}
    {read write : Message → Option Nat}
    (apart : ∀ f ∈ near ++ between ++ (part ++ after), f.address ≠ x.address)
    (own : ∀ m, x.writes m = true → write m = nearest (·.writes m) near.reverse) :
    (selected (near ++ x :: between) part after).map (.unlink x.address read write) =
      selected (near ++ between) part after := by
  induction part generalizing between with
  | nil => rfl
  | cons f part ih =>
    have rest : ∀ g ∈ near ++ (between ++ [f]) ++ (part ++ after), g.address ≠ x.address := by
      intro g hg
      exact apart g (by simpa [List.append_assoc] using hg)
    have same : (selectedContext (near ++ x :: between) f (part ++ after)).unlink x.address read write =
        selectedContext (near ++ between) f (part ++ after) := by
      unfold selectedContext Context.unlink
      simp only [Context.mk.injEq, true_and]
      constructor
      · funext m
        by_cases on : f.reads m = true
        · simp only [on, if_true]
          rw [if_neg (nearest_apart fun g hg => apart g ?_)]
          simp at hg ⊢
          tauto
        · simp [on]
      · funext m
        by_cases on : f.writes m = true
        · simp only [on, if_true]
          have turned : (near ++ x :: between).reverse = between.reverse ++ x :: near.reverse := by
            simp
          rw [turned, List.reverse_append]
          exact nearest_skip (fun g hg => apart g (by simp at hg ⊢; tauto)) (own m)
        · simp [on]
    have next := ih rest
    simp only [selected, List.map_cons, same]
    rw [List.append_assoc, List.cons_append, next, List.append_assoc]

theorem selected_address {before part after : List (Filter Message)} {cx : Context Message}
    (h : cx ∈ selected before part after) : cx.filter ∈ part := by
  rw [← selected_filters before part after]
  exact List.mem_map_of_mem h

theorem selected_apart {before part after : List (Filter Message)} {gone : Nat}
    (apart : ∀ f ∈ part, f.address ≠ gone) :
    (selected before part after).filter (fun cx => decide (cx.filter.address ≠ gone)) =
      selected before part after := by
  apply List.filter_eq_self.mpr
  intro cx hcx
  exact decide_eq_true (apart _ (selected_address hcx))

/-- Taking a context out of the links leaves those of the other filters. -/
theorem selected_unlink {near far : List (Filter Message)} {x : Filter Message}
    (apart : ∀ f ∈ near ++ far, f.address ≠ x.address) :
    ((selected [] (near ++ x :: far) []).map (.unlink x.address (selectedContext near x far).nextRead
      (selectedContext near x far).nextWrite)).filter
        (fun cx => decide (cx.filter.address ≠ x.address)) = selected [] (near ++ far) [] := by
  have near' : ∀ f ∈ near, f.address ≠ x.address := fun f hf => apart f (List.mem_append_left _ hf)
  have far' : ∀ f ∈ far, f.address ≠ x.address := fun f hf => apart f (List.mem_append_right _ hf)
  have earlier : (selected [] near (x :: far)).map (.unlink x.address
      (selectedContext near x far).nextRead (selectedContext near x far).nextWrite) =
        selected [] near far := by
    apply selected_unlink_before apart
    intro m on
    simp only [selectedContext, on, if_true]
  have later : (selected (near ++ [x]) far []).map (.unlink x.address
      (selectedContext near x far).nextRead (selectedContext near x far).nextWrite) =
        selected (near ++ []) far [] := by
    apply selected_unlink_after
    · simpa using apart
    · intro m on
      simp only [selectedContext, on, if_true]
  have parts : selected [] (near ++ x :: far) [] =
      selected [] near (x :: far) ++ selectedContext near x far :: selected (near ++ [x]) far [] := by
    rw [selected_append]
    simp [selected]
  have gone : ((selectedContext near x far).unlink x.address (selectedContext near x far).nextRead
      (selectedContext near x far).nextWrite).filter.address = x.address := rfl
  rw [parts, List.map_append, List.map_cons, earlier, later, List.filter_append, List.filter_cons,
    if_neg (by simp [gone]), selected_apart near', selected_apart far', selected_append]
  simp

/-- A removal that names no context changes no link. -/
theorem selected_unlink_absent {filters : List (Filter Message)} {gone : Nat}
    (absent : gone ∉ filters.map Filter.address) (read write : Message → Option Nat) :
    (selected [] filters []).map (.unlink gone read write) = selected [] filters [] := by
  have other : ∀ {able : Filter Message → Bool} {part : List (Filter Message)},
      (∀ f ∈ part, f ∈ filters) → nearest able part ≠ some gone :=
    fun inside => nearest_apart fun f hf same => absent (same ▸ List.mem_map_of_mem (inside f hf))
  conv => rhs; rw [← List.map_id (selected [] filters [])]
  apply List.map_congr_left
  intro cx hcx
  obtain ⟨pre, f, post, rfl, rfl⟩ := mem_selected hcx
  simp only [selectedContext, Context.unlink, List.nil_append, List.append_nil, id, Context.mk.injEq,
    true_and]
  constructor
  · funext m
    by_cases on : f.reads m = true
    · simp only [on, if_true]
      rw [if_neg (other (fun g hg => by simp [hg]))]
    · simp [on]
  · funext m
    by_cases on : f.writes m = true
    · simp only [on, if_true]
      rw [if_neg (other (fun g hg => List.mem_append_left _ (List.mem_reverse.mp hg)))]
    · simp [on]

namespace Pipe

inductive Op (Message : Type)
  | pushBack (f : Filter Message)
  | remove (address : Nat)
  | runDeferred

def step (p : Pipe Message) : Op Message → Pipe Message
  | .pushBack f => p.pushBack f
  | .remove address => p.remove address
  | .runDeferred => p.runDeferred

def run (reads writes : Message → Bool) (ops : List (Op Message)) : Pipe Message :=
  runFrom step (new reads writes) ops

/-- A new context has an address of its own, also apart from those that deferred removals
still name, and a context that is removed is in the pipe. -/
def Admits (p : Pipe Message) : Op Message → Prop
  | .pushBack f => f.address ∉ p.contexts.map (·.filter.address) ∧ f.address ∉ p.deferred
  | .remove address => address ∈ p.contexts.map (·.filter.address)
  | .runDeferred => True

/-- The head or the tail is removed, and its link leads to a context whose own removal is
still deferred. -/
def Strands (p : Pipe Message) : Op Message → Prop
  | .remove address => ∃ m cx a, p.find address = some cx ∧ a ∈ p.deferred ∧
    (p.head m = some address ∧ cx.nextRead m = some a ∨
      p.tail m = some address ∧ cx.nextWrite m = some a)
  | _ => False

/-- The filters that were pushed and not removed. -/
def remainder (filters : List (Filter Message)) : Op Message → List (Filter Message)
  | .pushBack f => filters ++ [f]
  | .remove address => filters.filter (fun f => decide (f.address ≠ address))
  | .runDeferred => filters

def remaining (ops : List (Op Message)) : List (Filter Message) := runFrom remainder [] ops

/-- The links are those of all filters in the pipe, `filters`, and the head and tail those of
the ones that stay, `staying`. -/
structure Tracks (reads writes : Message → Bool) (p : Pipe Message)
    (filters staying : List (Filter Message)) : Prop where
  canRead : p.reads = reads
  canWrite : p.writes = writes
  contexts : p.contexts = selected [] filters []
  distinct : (filters.map Filter.address).Nodup
  staying_eq : filters.filter (fun f => decide (f.address ∉ p.deferred)) = staying
  head : p.head = fun m => if reads m then nearest (·.reads m) staying else none
  tail : p.tail = fun m => if writes m then nearest (·.writes m) staying.reverse else none

section Steps

variable {reads writes : Message → Bool} {p : Pipe Message} {filters staying : List (Filter Message)}

theorem Tracks.addresses (h : Tracks reads writes p filters staying) :
    p.contexts.map (·.filter.address) = filters.map Filter.address := by
  rw [h.contexts]
  conv => rhs; rw [← selected_filters [] filters []]
  rw [List.map_map]
  rfl

theorem Tracks.pushBack (h : Tracks reads writes p filters staying) {f : Filter Message}
    (admitted : p.Admits (.pushBack f)) :
    Tracks reads writes (p.pushBack f) (filters ++ [f]) (staying ++ [f]) := by
  obtain ⟨fresh, undeferred⟩ := admitted
  rw [h.addresses] at fresh
  have pushed := pushBack_selection reads writes staying f
  refine ⟨h.canRead, h.canWrite, ?_, ?_, ?_, ?_, ?_⟩
  · show linkBack p.contexts (.new f) = _
    rw [h.contexts]
    exact linkBack_selected filters f
  · rw [List.map_append, List.map_singleton, List.nodup_append]
    refine ⟨h.distinct, by simp, ?_⟩
    rintro a ha b hb rfl
    rw [List.mem_singleton.mp hb] at ha
    exact fresh ha
  · show (filters ++ [f]).filter (fun g => decide (g.address ∉ p.deferred)) = _
    rw [List.filter_append, h.staying_eq, List.filter_cons, if_pos (decide_eq_true undeferred)]
    rfl
  · have same := congrArg Pipe.head pushed
    simp only [Pipe.pushBack, maybeUpdateTail, selection] at same ⊢
    rw [h.canRead, h.head]
    exact same
  · have same := congrArg Pipe.tail pushed
    simp only [Pipe.pushBack, maybeUpdateTail, selection] at same ⊢
    rw [h.canWrite, h.tail]
    exact same

/-- The place of a context in the pipe, and the context found there. -/
theorem Tracks.find (h : Tracks reads writes p filters staying) {address : Nat}
    (there : address ∈ filters.map Filter.address) :
    ∃ near x far, filters = near ++ x :: far ∧ x.address = address ∧
      (∀ f ∈ near ++ far, f.address ≠ x.address) ∧
      p.find address = some (selectedContext near x far) := by
  obtain ⟨x, hx, rfl⟩ := List.mem_map.mp there
  obtain ⟨near, far, rfl⟩ := List.append_of_mem hx
  have apart : ∀ f ∈ near ++ far, f.address ≠ x.address := by
    have distinct := h.distinct
    rw [List.map_append, List.map_cons] at distinct
    obtain ⟨-, tail, cross⟩ := List.nodup_append.mp distinct
    intro f hf
    rcases List.mem_append.mp hf with hf | hf
    · exact cross _ (List.mem_map_of_mem hf) _ List.mem_cons_self
    · intro same
      exact (List.nodup_cons.mp tail).1 (same ▸ List.mem_map_of_mem hf)
  refine ⟨near, x, far, rfl, rfl, apart, ?_⟩
  rw [Pipe.find, h.contexts, selected_append, List.find?_append]
  have none : (selected [] near (x :: far ++ [])).find?
      (fun cx => decide (cx.filter.address = x.address)) = none := by
    apply List.find?_eq_none.mpr
    intro cx hcx
    obtain ⟨pre, f, post, split, rfl⟩ := mem_selected hcx
    have away := apart f (List.mem_append_left _ (by rw [split]; simp))
    simpa [selectedContext] using away
  rw [none]
  simp [selected, selectedContext]

theorem Tracks.remove (h : Tracks reads writes p filters staying) {address : Nat}
    (admitted : p.Admits (.remove address)) (sound : ¬ p.Strands (.remove address)) :
    Tracks reads writes (p.remove address) filters
      (staying.filter (fun f => decide (f.address ≠ address))) := by
  have there : address ∈ filters.map Filter.address := by
    rw [← h.addresses]
    exact admitted
  obtain ⟨near, x, far, split, rfl, apart, found⟩ := h.find there
  refine ⟨h.canRead, h.canWrite, h.contexts, h.distinct, ?_, ?_, ?_⟩
  · rw [← h.staying_eq, List.filter_filter]
    apply List.filter_congr
    intro f _
    show decide (f.address ∉ p.deferred ++ [x.address]) = _
    rw [← Bool.decide_and]
    apply decide_eq_decide.mpr
    simp only [List.mem_append, List.mem_singleton, not_or]
    exact And.comm
  · funext m
    have head := congrFun h.head m
    show (if p.head m = some x.address then (p.find x.address).bind (·.nextRead m) else p.head m) = _
    rw [found, Option.bind_some]
    by_cases on : reads m = true
    · rw [if_pos on] at head ⊢
      rw [head]
      refine nearest_moves apart (split ▸ h.staying_eq) rfl ?_
      intro here a next pending
      exact sound ⟨m, _, a, found, pending, .inl ⟨head.trans here, next⟩⟩
    · rw [if_neg on] at head ⊢
      rw [head]
      simp
  · funext m
    have tail := congrFun h.tail m
    show (if p.tail m = some x.address then (p.find x.address).bind (·.nextWrite m) else p.tail m) = _
    rw [found, Option.bind_some]
    by_cases on : writes m = true
    · rw [if_pos on] at tail ⊢
      rw [tail, ← List.filter_reverse]
      have turned : (far.reverse ++ x :: near.reverse).filter
          (fun f => decide (f.address ∉ p.deferred)) = staying.reverse := by
        rw [← h.staying_eq, split, ← List.filter_reverse]
        simp
      refine nearest_moves (fun f hf => apart f ?_) turned rfl ?_
      · simp at hf ⊢
        tauto
      · intro here a next pending
        exact sound ⟨m, _, a, found, pending, .inr ⟨tail.trans here, next⟩⟩
    · rw [if_neg on] at tail ⊢
      rw [tail]
      simp

theorem Tracks.runDeferred (h : Tracks reads writes p filters staying) :
    ∃ filters', Tracks reads writes p.runDeferred filters' staying := by
  unfold Pipe.runDeferred
  rcases pending : p.deferred with _ | ⟨address, rest⟩
  · exact ⟨filters, h⟩
  · have kept := h.staying_eq
    rw [pending] at kept
    by_cases there : address ∈ filters.map Filter.address
    · obtain ⟨near, x, far, split, rfl, apart, found⟩ := h.find there
      have others : ∀ f ∈ near ++ far, decide (f.address ∉ rest) =
          decide (f.address ∉ x.address :: rest) := by
        intro f hf
        simp [apart f hf]
      refine ⟨near ++ far, h.canRead, h.canWrite, ?_, ?_, ?_, h.head, h.tail⟩
      · show ((p.contexts.map (Context.unlink x.address (fun m => (p.find x.address).bind (·.nextRead m))
          (fun m => (p.find x.address).bind (·.nextWrite m)))).filter
            (fun cx : Context Message => decide (cx.filter.address ≠ x.address))) = _
        rw [found, h.contexts, split]
        exact selected_unlink apart
      · have distinct := h.distinct
        rw [split] at distinct
        exact distinct.sublist (((List.sublist_cons_self x far).append_left near).map _)
      · rw [← kept, split, List.filter_append, List.filter_append, List.filter_cons,
          if_neg (by simp)]
        congr 1
        · exact List.filter_congr (fun f hf => others f (List.mem_append_left _ hf))
        · exact List.filter_congr (fun f hf => others f (List.mem_append_right _ hf))
    · refine ⟨filters, h.canRead, h.canWrite, ?_, h.distinct, ?_, h.head, h.tail⟩
      · show ((p.contexts.map (Context.unlink address (fun m => (p.find address).bind (·.nextRead m))
          (fun m => (p.find address).bind (·.nextWrite m)))).filter
            (fun cx : Context Message => decide (cx.filter.address ≠ address))) = _
        rw [h.contexts, selected_unlink_absent there]
        exact selected_apart (fun f hf same => there (same ▸ List.mem_map_of_mem hf))
      · rw [← kept]
        apply List.filter_congr
        intro f hf
        have other : f.address ≠ address := fun same => there (same ▸ List.mem_map_of_mem hf)
        show decide (f.address ∉ rest) = _
        simp [other]

theorem Tracks.step (h : Tracks reads writes p filters staying) {op : Op Message}
    (admitted : p.Admits op) (sound : ¬ p.Strands op) :
    ∃ filters', Tracks reads writes (p.step op) filters' (remainder staying op) := by
  cases op with
  | pushBack f => exact ⟨_, h.pushBack admitted⟩
  | remove address => exact ⟨_, h.remove admitted sound⟩
  | runDeferred => exact h.runDeferred

/-- With nothing deferred the pipe selects among the filters that stay. -/
theorem Tracks.selects (h : Tracks reads writes p filters staying) (done : p.deferred = []) :
    p = selection reads writes staying := by
  have all : filters = staying := by
    rw [← h.staying_eq, done]
    exact (List.filter_eq_self.mpr (fun f _ => by simp)).symm
  obtain ⟨canRead, canWrite, contexts, -, -, head, tail⟩ := h
  cases p
  simp only [selection, mk.injEq]
  exact ⟨canRead, canWrite, all ▸ contexts, head, tail, done⟩

theorem Tracks.start : Tracks reads writes (new reads writes) [] [] :=
  ⟨rfl, rfl, rfl, List.nodup_nil, rfl, by simp [new, nearest], by simp [new, nearest]⟩

theorem tracks_run {ops : List (Op Message)}
    (proper : ∀ n op, ops[n]? = some op → (run reads writes (ops.take n)).Admits op ∧
      ¬ (run reads writes (ops.take n)).Strands op) (n : Nat) :
    ∃ filters, Tracks reads writes (run reads writes (ops.take n)) filters
      (remaining (ops.take n)) := by
  induction n with
  | zero => exact ⟨[], Tracks.start⟩
  | succ n ih =>
    cases taken : ops[n]? with
    | none =>
      rw [List.take_add_one, taken, Option.toList_none, List.append_nil]
      exact ih
    | some op =>
      obtain ⟨filters, tracks⟩ := ih
      obtain ⟨admitted, sound⟩ := proper n op taken
      have next := tracks.step admitted sound
      unfold run remaining at next ⊢
      rw [Runs.take_succ taken, Runs.take_succ taken]
      exact next

end Steps

/-- The head, the tail or a link of some message is the address. -/
def Refers (p : Pipe Message) (a : Nat) : Prop :=
  ∃ m, p.head m = some a ∨ p.tail m = some a ∨
    (∃ b, p.ForwardsRead m b a) ∨ ∃ b, p.ForwardsWrite m b a

theorem selection_refers {reads writes : Message → Bool} {filters : List (Filter Message)} {a : Nat}
    (h : (selection reads writes filters).Refers a) : a ∈ filters.map Filter.address := by
  have inside : ∀ {able : Filter Message → Bool} {part : List (Filter Message)} {on : Bool},
      (∀ f ∈ part, f ∈ filters) → (if on then nearest able part else none) = some a →
        a ∈ filters.map Filter.address := by
    intro able part on within back
    cases on with
    | false => cases back
    | true =>
      obtain ⟨f, hf, rfl⟩ := nearest_mem back
      exact List.mem_map_of_mem (within f hf)
  obtain ⟨m, head | tail | ⟨b, cx, hcx, -, next⟩ | ⟨b, cx, hcx, -, next⟩⟩ := h
  · exact inside (fun f hf => hf) head
  · exact inside (fun f hf => List.mem_reverse.mp hf) tail
  · obtain ⟨pre, f, post, rfl, rfl⟩ := mem_selected hcx
    exact inside (fun g hg => by simp at hg ⊢; tauto) next
  · obtain ⟨pre, f, post, rfl, rfl⟩ := mem_selected hcx
    exact inside (fun g hg => by simp at hg ⊢; tauto) next

/-- Once the deferred removals have run, the pipe is the one that the remaining filters
build. -/
theorem removed_filters_leave_no_trace (reads writes : Message → Bool) (ops : List (Op Message))
    (proper : ∀ n op, ops[n]? = some op → (run reads writes (ops.take n)).Admits op ∧
      ¬ (run reads writes (ops.take n)).Strands op)
    (n : Nat) (done : (run reads writes (ops.take n)).deferred = []) :
    run reads writes (ops.take n) = build reads writes (remaining (ops.take n)) ∧
      ∀ a, (run reads writes (ops.take n)).Refers a →
        a ∈ (remaining (ops.take n)).map Filter.address := by
  obtain ⟨filters, tracks⟩ := tracks_run proper n
  have selects := tracks.selects done
  refine ⟨by rw [build_eq, selects], fun a refers => ?_⟩
  rw [selects] at refers
  exact selection_refers refers

def duplex (address : Nat) : Filter Unit := ⟨address, fun _ => true, fun _ => true⟩

/-- Three filters are pushed and two of them removed before the deferred removals run. -/
def removeTwo (first second : Nat) : List (Op Unit) :=
  [.pushBack (duplex 1), .pushBack (duplex 2), .pushBack (duplex 3), .remove first, .remove second,
    .runDeferred, .runDeferred]

theorem removed_filters_leave_no_trace_two :
    run (fun _ => true) (fun _ => true) (removeTwo 1 2) =
        build (fun _ => true) (fun _ => true) [duplex 3] ∧
      ∀ a, (run (fun _ => true) (fun _ => true) (removeTwo 1 2)).Refers a → a ∈ [3] := by
  have proper : ∀ n op, (removeTwo 1 2)[n]? = some op →
      (run (fun _ => true) (fun _ => true) ((removeTwo 1 2).take n)).Admits op ∧
        ¬ (run (fun _ => true) (fun _ => true) ((removeTwo 1 2).take n)).Strands op := by
    intro n op taken
    rcases n with _ | _ | _ | _ | _ | _ | _ | n
    · cases taken
      exact ⟨⟨by decide, by decide⟩, id⟩
    · cases taken
      exact ⟨⟨by decide, by decide⟩, id⟩
    · cases taken
      exact ⟨⟨by decide, by decide⟩, id⟩
    · cases taken
      refine ⟨by unfold Admits; decide, ?_⟩
      rintro ⟨m, cx, a, -, pending, -⟩
      cases pending
    · cases taken
      refine ⟨by unfold Admits; decide, ?_⟩
      rintro ⟨⟨⟩, cx, a, found, pending, ⟨-, next⟩ | ⟨here, -⟩⟩
      · cases found
        cases next
        exact absurd pending (by decide)
      · exact absurd here (by decide)
    · cases taken
      exact ⟨trivial, id⟩
    · cases taken
      exact ⟨trivial, id⟩
    · simp [removeTwo] at taken
  exact removed_filters_leave_no_trace _ _ (removeTwo 1 2) proper 7 (by decide)

/-- The head still is the filter that was removed first. -/
theorem remove_strands_head :
    (∀ n op, (removeTwo 2 1)[n]? = some op →
      (run (fun _ => true) (fun _ => true) ((removeTwo 2 1).take n)).Admits op) ∧
    (run (fun _ => true) (fun _ => true) (removeTwo 2 1)).deferred = [] ∧
    (remaining (removeTwo 2 1)).map Filter.address = [3] ∧
    (run (fun _ => true) (fun _ => true) (removeTwo 2 1)).head () = some 2 ∧
    (build (fun _ => true) (fun _ => true) (remaining (removeTwo 2 1))).head () = some 3 := by
  refine ⟨?_, by decide, by decide, by decide, by decide⟩
  intro n op taken
  rcases n with _ | _ | _ | _ | _ | _ | _ | n
  · cases taken
    exact ⟨by decide, by decide⟩
  · cases taken
    exact ⟨by decide, by decide⟩
  · cases taken
    exact ⟨by decide, by decide⟩
  · cases taken
    unfold Admits
    decide
  · cases taken
    unfold Admits
    decide
  · cases taken
    trivial
  · cases taken
    trivial
  · simp [removeTwo] at taken

end Pipe

end XiRuntime
