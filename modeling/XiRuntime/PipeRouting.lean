import XiRuntime.Pipe

namespace XiRuntime

variable {Message : Type}

/-- The read links that a new last filter gives to those before it. -/
theorem selected_addRead (before part after : List (Filter Message)) (f : Filter Message) :
    (selected before part after).map (·.addReadIfNull (.new f)) =
      selected before part (after ++ [f]) := by
  induction part generalizing before with
  | nil => rfl
  | cons g part ih =>
    have same : (selectedContext before g (part ++ after)).addReadIfNull (.new f) =
        selectedContext before g (part ++ (after ++ [f])) := by
      unfold selectedContext Context.addReadIfNull Context.new
      simp only [Context.mk.injEq, true_and, and_true]
      funext m
      rw [← List.append_assoc, nearest_append _ (part ++ after), nearest_cons]
      cases g.reads m with
      | false => simp
      | true =>
        cases nearest (·.reads m) (part ++ after) with
        | none => cases f.reads m <;> simp [nearest]
        | some a => simp
    simp only [selected, List.map_cons, ih, same]

/-- The write links that a new context gets from the contexts it is shown in turn. -/
theorem foldl_addWrite (cxs : List (Context Message)) (cx : Context Message) :
    cxs.foldl Context.addWriteIfNull cx =
      { cx with nextWrite := fun m =>
          if cx.filter.writes m then
            (cx.nextWrite m).or (nearest (·.writes m) (cxs.map Context.filter))
          else cx.nextWrite m } := by
  induction cxs generalizing cx with
  | nil => simp [nearest]
  | cons other cxs ih =>
    rw [List.foldl_cons, ih]
    unfold Context.addWriteIfNull
    simp only [Context.mk.injEq, true_and]
    funext m
    rw [List.map_cons, nearest_cons]
    cases cx.filter.writes m with
    | false => simp
    | true =>
      cases hx : cx.nextWrite m with
      | none => cases other.filter.writes m <;> simp
      | some a => simp

theorem linkBack_selected (filters : List (Filter Message)) (f : Filter Message) :
    Pipe.linkBack (selected [] filters []) (.new f) = selected [] (filters ++ [f]) [] := by
  have links := selected_filters [] filters []
  have last : (selected [] filters []).reverse.foldl Context.addWriteIfNull (.new f) =
      selectedContext filters f [] := by
    rw [foldl_addWrite, List.map_reverse, links]
    simp only [Context.new, selectedContext, Context.mk.injEq, true_and]
    constructor
    · funext m
      simp [nearest]
    · funext m
      by_cases able : f.writes m = true
      · simp [able]
      · simp [able]
  rw [Pipe.linkBack, selected_addRead, last, selected_append]
  simp [selected]

namespace Pipe

/-- What `push_back` does to a pipe that selects in order. -/
theorem pushBack_selection (reads writes : Message → Bool) (filters : List (Filter Message))
    (f : Filter Message) :
    (selection reads writes filters).pushBack f = selection reads writes (filters ++ [f]) := by
  unfold pushBack maybeUpdateTail selection
  simp only [linkBack_selected, Pipe.mk.injEq, true_and, and_true]
  constructor
  · funext m
    rw [nearest_append, nearest_cons]
    cases reads m with
    | false => simp
    | true =>
      cases nearest (·.reads m) filters with
      | none => simp [nearest]
      | some a => simp
  · funext m
    rw [List.reverse_append, List.reverse_singleton, List.singleton_append, nearest_cons]
    cases writes m <;> simp

theorem build_eq (reads writes : Message → Bool) (filters : List (Filter Message)) :
    build reads writes filters = selection reads writes filters := by
  have run : ∀ fs gs, gs.foldl pushBack (selection reads writes fs) =
      selection reads writes (fs ++ gs) := by
    intro fs gs
    induction gs generalizing fs with
    | nil => simp
    | cons g gs ih => rw [List.foldl_cons, pushBack_selection, ih, List.append_assoc, List.singleton_append]
  have start : new reads writes = selection reads writes [] := by
    simp [new, selection, selected, nearest]
  rw [build, start, run, List.nil_append]

end Pipe

theorem mem_selected {before part after : List (Filter Message)} {cx : Context Message}
    (h : cx ∈ selected before part after) :
    ∃ pre f post, part = pre ++ f :: post ∧ cx = selectedContext (before ++ pre) f (post ++ after) := by
  induction part generalizing before with
  | nil => cases h
  | cons g part ih =>
    rcases List.mem_cons.mp h with rfl | h
    · exact ⟨[], g, part, rfl, by rw [List.append_nil]⟩
    · obtain ⟨pre, f, post, rfl, rfl⟩ := ih h
      exact ⟨g :: pre, f, post, rfl, by rw [List.append_assoc, List.singleton_append]⟩

theorem selected_at (pre : List (Filter Message)) (f : Filter Message) (post : List (Filter Message)) :
    (selected [] (pre ++ f :: post) [])[pre.length]? = some (selectedContext pre f post) := by
  have size : (selected [] pre (f :: post ++ [])).length = pre.length := by
    rw [← List.length_map Context.filter, selected_filters]
  rw [selected_append, ← size, List.getElem?_append_right (Nat.le_refl _), Nat.sub_self]
  simp [selected]

section Cycles

variable {filters : List (Filter Message)} (distinct : (filters.map Filter.address).Nodup)
include distinct

/-- A context's own place in the pipe. -/
theorem idxOf_address {pre post : List (Filter Message)} {f : Filter Message}
    (h : filters = pre ++ f :: post) : (filters.map Filter.address).idxOf f.address = pre.length := by
  subst h
  have apart : f.address ∉ pre.map Filter.address := by
    rw [List.map_append, List.map_cons] at distinct
    intro back
    exact (List.nodup_append.mp distinct).2.2 _ back _ List.mem_cons_self rfl
  rw [List.map_append, List.idxOf_append_of_notMem apart, List.map_cons, List.idxOf_cons_self,
    List.length_map, Nat.add_zero]

theorem idxOf_later {pre post : List (Filter Message)} {f : Filter Message} {a : Nat}
    (h : filters = pre ++ f :: post) (later : a ∈ post.map Filter.address) :
    pre.length < (filters.map Filter.address).idxOf a := by
  have whole : filters = (pre ++ [f]) ++ post := by simp [h]
  have apart : a ∉ (pre ++ [f]).map Filter.address := by
    rw [whole, List.map_append] at distinct
    intro back
    exact (List.nodup_append.mp distinct).2.2 _ back _ later rfl
  rw [whole, List.map_append, List.idxOf_append_of_notMem apart, List.length_map, List.length_append]
  simp only [List.length_singleton]
  omega

omit distinct in
theorem idxOf_earlier {pre post : List (Filter Message)} {f : Filter Message} {a : Nat}
    (h : filters = pre ++ f :: post) (earlier : a ∈ pre.map Filter.address) :
    (filters.map Filter.address).idxOf a < pre.length := by
  rw [h, List.map_append, List.idxOf_append_of_mem earlier]
  have bound := List.idxOf_lt_length_of_mem earlier
  rwa [List.length_map] at bound

theorem forwardsRead_later {reads writes : Message → Bool} {m : Message} {a b : Nat}
    (h : (selection reads writes filters).ForwardsRead m a b) :
    (filters.map Filter.address).idxOf a < (filters.map Filter.address).idxOf b := by
  obtain ⟨cx, hcx, rfl, next⟩ := h
  obtain ⟨pre, f, post, split, rfl⟩ := mem_selected hcx
  simp only [selectedContext, List.append_nil] at next
  split at next
  next =>
    obtain ⟨g, hg, rfl⟩ := nearest_mem next
    have place : (filters.map Filter.address).idxOf f.address = pre.length :=
      idxOf_address distinct split
    have beyond := idxOf_later distinct split (List.mem_map_of_mem hg)
    show (filters.map Filter.address).idxOf f.address < _
    omega
  next => cases next

theorem forwardsWrite_earlier {reads writes : Message → Bool} {m : Message} {a b : Nat}
    (h : (selection reads writes filters).ForwardsWrite m a b) :
    (filters.map Filter.address).idxOf b < (filters.map Filter.address).idxOf a := by
  obtain ⟨cx, hcx, rfl, next⟩ := h
  obtain ⟨pre, f, post, split, rfl⟩ := mem_selected hcx
  simp only [selectedContext, List.nil_append] at next
  split at next
  next =>
    obtain ⟨g, hg, rfl⟩ := nearest_mem next
    have place : (filters.map Filter.address).idxOf f.address = pre.length :=
      idxOf_address distinct split
    have below := idxOf_earlier split (List.mem_map_of_mem (List.mem_reverse.mp hg))
    show _ < (filters.map Filter.address).idxOf f.address
    omega
  next => cases next

end Cycles

/-- A relation that goes down in a number does not come back. -/
theorem not_transGen_self {r : Nat → Nat → Prop} (rank : Nat → Nat)
    (h : ∀ a b, r a b → rank b < rank a) (a : Nat) : ¬ Relation.TransGen r a a := by
  have down : ∀ b, Relation.TransGen r a b → rank b < rank a := by
    intro b path
    induction path with
    | single first => exact h _ _ first
    | tail _ last ih => exact Nat.lt_trans (h _ _ last) ih
  intro cycle
  exact Nat.lt_irrefl _ (down a cycle)

namespace Pipe

/-- `read` and `write` of a pipe built by `push_back` start at the first reader and the last
writer, `forward_read` goes to the nearest later reader, `forward_write` to the nearest
earlier writer, and no message comes back. -/
theorem push_back_selects (reads writes : Message → Bool) (filters : List (Filter Message))
    (m : Message) :
    ((build reads writes filters).head m = if reads m then nearest (·.reads m) filters else none) ∧
      ((build reads writes filters).tail m =
        if writes m then nearest (·.writes m) filters.reverse else none) ∧
      (∀ before f after, filters = before ++ f :: after →
        ∃ cx, (build reads writes filters).contexts[before.length]? = some cx ∧ cx.filter = f ∧
          (f.reads m → cx.nextRead m = nearest (·.reads m) after) ∧
          (f.writes m → cx.nextWrite m = nearest (·.writes m) before.reverse)) ∧
      ((filters.map Filter.address).Nodup → ∀ a,
        ¬ Relation.TransGen ((build reads writes filters).ForwardsRead m) a a ∧
          ¬ Relation.TransGen ((build reads writes filters).ForwardsWrite m) a a) := by
  rw [build_eq]
  refine ⟨rfl, rfl, ?_, ?_⟩
  · rintro before f after rfl
    refine ⟨selectedContext before f after, selected_at before f after, rfl, ?_, ?_⟩
    · intro able
      simp only [selectedContext, able, if_true]
    · intro able
      simp only [selectedContext, able, if_true]
  · intro distinct a
    constructor
    · refine not_transGen_self
        (fun b => filters.length - (filters.map Filter.address).idxOf b) ?_ a
      intro b c forwards
      have later := forwardsRead_later distinct forwards
      have inside : (filters.map Filter.address).idxOf b < filters.length := by
        obtain ⟨cx, hcx, rfl, -⟩ := forwards
        obtain ⟨pre, f, post, split, rfl⟩ := mem_selected hcx
        have place : (filters.map Filter.address).idxOf f.address = pre.length :=
          idxOf_address distinct split
        show (filters.map Filter.address).idxOf f.address < _
        rw [place, split, List.length_append, List.length_cons]
        omega
      omega
    · exact not_transGen_self _ (fun b c forwards => forwardsWrite_earlier distinct forwards) a

/-- Two filters that read and write, and one that only writes between them. -/
def threeFilters : List (Filter Unit) :=
  [⟨1, fun _ => true, fun _ => true⟩, ⟨2, fun _ => false, fun _ => true⟩,
    ⟨3, fun _ => true, fun _ => true⟩]

theorem push_back_selects_three :
    (build (fun _ => true) (fun _ => true) threeFilters).head () = some 1 ∧
      (build (fun _ => true) (fun _ => true) threeFilters).tail () = some 3 ∧
      ¬ Relation.TransGen ((build (fun _ => true) (fun _ => true) threeFilters).ForwardsRead ()) 1 1 := by
  obtain ⟨head, tail, -, acyclic⟩ := push_back_selects (fun _ => true) (fun _ => true) threeFilters ()
  exact ⟨head, tail, (acyclic (by decide) 1).1⟩

/-- No filter of the pipe shares a message with the filter, neither to read nor to write. -/
def Disjoint (x : Filter Message) (filters : List (Filter Message)) : Prop :=
  ∀ m, ∀ f ∈ filters, ¬ (x.reads m = true ∧ f.reads m = true) ∧
    ¬ (x.writes m = true ∧ f.writes m = true)

theorem linkFront_selected (filters : List (Filter Message)) (x : Filter Message) :
    linkFront (selected [] filters []) (.new x) =
      ⟨x, fun _ => none, fun m => if x.writes m then nearest (·.writes m) filters else none⟩ ::
        selected [] filters [x] := by
  have links := selected_filters [] filters []
  rw [linkFront, selected_addRead, foldl_addWrite, links, List.nil_append]
  congr 1

/-- With nothing in common, a filter in front is like a filter behind. -/
theorem selected_disjoint {x : Filter Message} {before part after : List (Filter Message)}
    (h : Disjoint x part) :
    selected before part (after ++ [x]) = selected (x :: before) part after := by
  induction part generalizing before with
  | nil => rfl
  | cons f part ih =>
    have rest : Disjoint x part := fun m g hg => h m g (List.mem_cons_of_mem _ hg)
    have same : selectedContext before f (part ++ (after ++ [x])) =
        selectedContext (x :: before) f (part ++ after) := by
      unfold selectedContext
      simp only [Context.mk.injEq, true_and]
      constructor
      · funext m
        obtain ⟨reads, -⟩ := h m f List.mem_cons_self
        cases hf : f.reads m with
        | false => rfl
        | true =>
          have off : x.reads m = false := by
            cases hx : x.reads m with
            | false => rfl
            | true => exact absurd ⟨hx, hf⟩ reads
          rw [← List.append_assoc, nearest_append, nearest_cons, off]
          simp [nearest]
      · funext m
        obtain ⟨-, writes⟩ := h m f List.mem_cons_self
        cases hf : f.writes m with
        | false => rfl
        | true =>
          have off : x.writes m = false := by
            cases hx : x.writes m with
            | false => rfl
            | true => exact absurd ⟨hx, hf⟩ writes
          rw [List.reverse_cons, nearest_append, nearest_cons, off]
          simp [nearest]
    simp only [selected, same]
    rw [ih rest]
    rfl

theorem linkFront_disjoint {x : Filter Message} {filters : List (Filter Message)}
    (disjoint : Disjoint x filters) :
    linkFront (selected [] filters []) (.new x) = selected [] (x :: filters) [] := by
  have moved : selected [] filters ([] ++ [x]) = selected [x] filters [] :=
    selected_disjoint disjoint
  rw [List.nil_append] at moved
  rw [linkFront_selected]
  simp only [selected, List.append_nil, List.nil_append, moved]
  congr 1
  simp only [selectedContext, Context.mk.injEq, true_and]
  constructor
  · funext m
    by_cases hx : x.reads m = true
    · rw [if_pos hx, nearest_none]
      intro f hf
      by_contra able
      exact (disjoint m f hf).1 ⟨hx, by simpa using able⟩
    · rw [if_neg hx]
  · funext m
    by_cases hx : x.writes m = true
    · rw [if_pos hx, if_pos hx, nearest_none]
      · rfl
      · intro f hf
        by_contra able
        exact (disjoint m f hf).2 ⟨hx, by simpa using able⟩
    · rw [if_neg hx, if_neg hx]

/-- The new context has no read link and its write link goes forward. -/
theorem disjoint_of_linkFront {x : Filter Message} {filters : List (Filter Message)}
    (same : linkFront (selected [] filters []) (.new x) = selected [] (x :: filters) []) :
    Disjoint x filters := by
  rw [linkFront_selected] at same
  simp only [selected, List.append_nil] at same
  have first := (List.cons.inj same).1
  simp only [selectedContext, Context.mk.injEq, true_and] at first
  intro m f hf
  constructor
  · rintro ⟨hx, able⟩
    have link := congrFun first.1 m
    simp only [hx, if_true] at link
    exact nearest_ne_none hf able link.symm
  · rintro ⟨hx, able⟩
    have link := congrFun first.2 m
    simp only [hx, if_true] at link
    exact nearest_ne_none hf able link

/-- The head and the tail are those of the pipe with the filter first. -/
theorem pushFront_selection (reads writes : Message → Bool) (filters : List (Filter Message))
    (x : Filter Message) :
    (selection reads writes filters).pushFront x = { selection reads writes (x :: filters) with
      contexts := linkFront (selected [] filters []) (.new x) } := by
  unfold pushFront maybeUpdateHead
  simp only [selection, Pipe.mk.injEq, true_and, and_true]
  constructor
  · funext m
    rw [nearest_cons]
    by_cases on : reads m = true
    · simp [on]
    · simp [on]
  · funext m
    have last : nearest (fun f => f.writes m) (x :: filters).reverse =
        (nearest (fun f => f.writes m) filters.reverse).or
          (if x.writes m then some x.address else none) := by
      rw [List.reverse_cons, nearest_append, nearest_cons]
      rfl
    rw [last]
    let rest := nearest (fun f => f.writes m) filters.reverse
    show (if (writes m && (if writes m then rest else none).isNone && x.writes m) = true then
      some x.address else if writes m then rest else none) =
        if writes m then rest.or (if x.writes m then some x.address else none) else none
    cases rest with
    | none => cases writes m <;> simp
    | some a => cases writes m <;> simp

/-- `push_front` builds what `push_back` builds with the filter first, exactly when the
filter has no message in common with the others. -/
theorem push_front_agrees_iff (reads writes : Message → Bool) (filters : List (Filter Message))
    (x : Filter Message) :
    (build reads writes filters).pushFront x = build reads writes (x :: filters) ↔
      Disjoint x filters := by
  rw [build_eq, build_eq, pushFront_selection]
  constructor
  · intro same
    exact disjoint_of_linkFront (congrArg Pipe.contexts same)
  · intro disjoint
    rw [linkFront_disjoint disjoint]
    rfl

/-- Of two filters that read a message, the one pushed to the front gets no link, and the
other forwards back to it. -/
theorem push_front_links_backwards :
    let p := (build (fun _ => true) (fun _ => true) [⟨1, fun _ => true, fun _ => false⟩]).pushFront
      (⟨2, fun _ => true, fun _ => false⟩ : Filter Unit)
    p.ForwardsRead () 1 2 ∧
      p ≠ build (fun _ => true) (fun _ => true)
        [⟨2, fun _ => true, fun _ => false⟩, ⟨1, fun _ => true, fun _ => false⟩] := by
  refine ⟨⟨_, List.mem_cons_of_mem _ List.mem_cons_self, rfl, rfl⟩, ?_⟩
  intro same
  have contexts := congrArg (fun p => (p.contexts.map (·.nextRead ()))) same
  revert contexts
  decide

end Pipe

end XiRuntime
