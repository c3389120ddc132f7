import Libaflmm.HashTables
import Libaflmm.RecursionSampling
import Libaflmm.TreeTexts

/-!
# The chunk store

The subtrees of up to 30 nodes of the trees that are added are the chunks that
inputs are spliced with. A chunk is stored once for each text, whatever
nonterminal it derives: it is the one that derives the text first. The text of
each chunk is kept in a file of its own.

A file that cannot be created or written is a panic, and so is a script that
fails.
-/

namespace Libaflmm

structure ChunkStore where
  ntsToChunks : HashMap NTermId (List (Nat × NodeId))
  seenOutputs : HashSet (List UInt8)
  trees : List Tree
  numberOfChunks : Nat

/-- The files `chunk_000000000` and so on. -/
abbrev ChunkFiles := HashMap Nat (List UInt8)

namespace ChunkStore

def new : ChunkStore := ⟨∅, ∅, [], 0⟩

section

variable (ctx : Context) (scripts : Scripts) (creates : Nat → List UInt8 → Bool) (fuel : Nat)

/-- The loop body of `add_tree`, with whether there has been a new chunk. -/
def addChunk (tree : Tree) (id : Nat) (s : (ChunkStore × ChunkFiles) × Bool) (n : NodeId) :
    Option ((ChunkStore × ChunkFiles) × Bool) := do
  let ((store, files), containsNewChunk) := s
  let size ← tree.sizes[n]?
  if 30 < size then some ((store, files), containsNewChunk)
  else do
    let (buffer, _) ← Unparser.unparse tree ctx scripts fuel n
    if buffer ∈ store.seenOutputs then some ((store, files), containsNewChunk)
    else do
      let nt ← (tree.getRule n ctx).map Rule.nonterm
      let chunks := (store.ntsToChunks.lookup nt).getD []
      if creates store.numberOfChunks buffer then
        some (({ store with
            ntsToChunks := AList.insert nt (chunks ++ [(id, n)]) store.ntsToChunks
            seenOutputs := AList.insert buffer () store.seenOutputs
            numberOfChunks := store.numberOfChunks + 1 },
          AList.insert store.numberOfChunks buffer files), true)
      else none

def addTree (s : ChunkStore × ChunkFiles) (tree : Tree) : Option (ChunkStore × ChunkFiles) := do
  let id := s.1.trees.length
  let ((store, files), containsNewChunk) ←
    (List.range tree.rules.length).foldlM (addChunk ctx scripts creates fuel tree id) (s, false)
  some (if containsNewChunk then { store with trees := store.trees ++ [tree] } else store, files)

end

section

variable {R : Type} [Rand R]

/-- The `filter` of `get_alternative_to`. -/
def relevant (store : ChunkStore) (rid : RuleId) :
    List (Nat × NodeId) → Option (List (Nat × NodeId))
  | [] => some []
  | (tid, nid) :: chunks => do
    let tree ← store.trees[tid]?
    let label ← tree.rules[nid]?
    let chunks ← relevant store rid chunks
    some (if label.id ≠ rid then (tid, nid) :: chunks else chunks)

def getAlternativeTo (store : ChunkStore) (rid : RuleId) (ctx : Context) (r : R) :
    Option (Option (Tree × NodeId) × R) := do
  let nt ← ctx.getNt (.rule rid)
  match store.ntsToChunks.lookup nt with
  | none => some (none, r)
  | some chunks => do
    let chunks ← store.relevant rid chunks
    let (selected, r) := Rand.chooseIter chunks r
    match selected with
    | none => some (none, r)
    | some (tid, nid) => do
      let tree ← store.trees[tid]?
      some (some (tree, nid), r)

end

/-! ## What is stored -/

open RoseTree

/-- A chunk with its text, in the order in which they are stored. -/
structure Chunk where
  nt : NTermId
  rule : RuleId
  tid : Nat
  nid : NodeId
  text : List UInt8

def Chunk.place (c : Chunk) : Nat × NodeId := (c.tid, c.nid)

/-- The chunk is a node of a tree. -/
structure Chunk.IsIn (ctx : Context) (scripts : Scripts) (trees : List (RoseTree RuleIdOrCustom))
    (c : Chunk) (tree sub : RoseTree RuleIdOrCustom) : Prop where
  kept : trees[c.tid]? = some tree
  node : tree.subtree? c.nid = some sub
  derives : Derives ctx c.nt sub
  rule : sub.labels.head?.map RuleIdOrCustom.id = some c.rule
  size : sub.size ≤ 30
  text : sub.text ctx scripts = some c.text

/-- The tables and the files are those of a list of chunks with distinct texts. -/
structure Records (ctx : Context) (scripts : Scripts) (trees : List (RoseTree RuleIdOrCustom))
    (log : List Chunk) (store : ChunkStore) (files : ChunkFiles) : Prop where
  listed : ∀ nt, (store.ntsToChunks.lookup nt).getD [] =
    (log.filter (·.nt = nt)).map Chunk.place
  seen : ∀ text, text ∈ store.seenOutputs ↔ text ∈ log.map Chunk.text
  distinct : (log.map Chunk.text).Nodup
  number : store.numberOfChunks = log.length
  files : ∀ k, files.lookup k = (log[k]?).map Chunk.text
  chunks : ∀ c ∈ log, ∃ tree sub, c.IsIn ctx scripts trees tree sub

variable {ctx : Context} {scripts : Scripts} {trees : List (RoseTree RuleIdOrCustom)}
  {log : List Chunk} {store : ChunkStore} {files : ChunkFiles}

theorem Records.new : Records ctx scripts [] [] ChunkStore.new ∅ := by
  constructor
  · exact fun nt => rfl
  · exact fun text => by simp [ChunkStore.new]
  · exact List.nodup_nil
  · rfl
  · exact fun k => rfl
  · exact fun c hc => absurd hc List.not_mem_nil

theorem Records.more_trees (h : Records ctx scripts trees log store files)
    (more : List (RoseTree RuleIdOrCustom)) :
    Records ctx scripts (trees ++ more) log store files := by
  refine { h with chunks := fun c hc => ?_ }
  obtain ⟨tree, sub, hin⟩ := h.chunks c hc
  have hlt : c.tid < trees.length := (List.getElem?_eq_some_iff.mp hin.kept).1
  exact ⟨tree, sub, { hin with kept := by rw [List.getElem?_append_left hlt, hin.kept] }⟩

/-- A chunk with a new text is added. -/
theorem Records.push {c : Chunk} {tree sub : RoseTree RuleIdOrCustom}
    (h : Records ctx scripts trees log store files) (hin : c.IsIn ctx scripts trees tree sub)
    (hnew : c.text ∉ store.seenOutputs) :
    Records ctx scripts trees (log ++ [c])
      { store with
        ntsToChunks := AList.insert c.nt ((store.ntsToChunks.lookup c.nt).getD [] ++ [c.place])
          store.ntsToChunks
        seenOutputs := AList.insert c.text () store.seenOutputs
        numberOfChunks := store.numberOfChunks + 1 }
      (AList.insert store.numberOfChunks c.text files) := by
  constructor
  · intro nt
    by_cases hnt : nt = c.nt
    · subst hnt
      simp [h.listed]
    · have hne : c.nt ≠ nt := Ne.symm hnt
      simp [AList.lookup_insert_ne hnt, h.listed, hne]
  · intro text
    simp [h.seen, or_comm]
  · rw [List.map_append, List.nodup_append]
    refine ⟨h.distinct, List.nodup_singleton _, fun a ha b hb => ?_⟩
    rintro rfl
    obtain rfl := List.mem_singleton.mp hb
    exact hnew ((h.seen _).mpr ha)
  · simp [h.number]
  · intro k
    by_cases hk : k = store.numberOfChunks
    · subst hk
      rw [AList.lookup_insert, h.number, List.getElem?_concat_length]
      rfl
    · rw [AList.lookup_insert_ne hk, h.files]
      rw [h.number] at hk
      rcases Nat.lt_or_gt_of_ne hk with hlt | hgt
      · rw [List.getElem?_append_left hlt]
      · rw [List.getElem?_eq_none (Nat.le_of_lt hgt), List.getElem?_eq_none]
        rw [List.length_append]
        exact hgt
  · intro c' hc'
    rcases List.mem_append.mp hc' with hold | hlast
    · exact h.chunks c' hold
    · obtain rfl := List.mem_singleton.mp hlast
      exact ⟨tree, sub, hin⟩

/-! ## Adding a tree -/

/-- A subtree that has its text in the store. -/
def Holds (ctx : Context) (scripts : Scripts) (log : List Chunk)
    (sub : RoseTree RuleIdOrCustom) : Prop :=
  ∃ text, sub.text ctx scripts = some text ∧ text ∈ log.map Chunk.text

/-- What the loop over the nodes of a tree has done so far. -/
structure Extends (ctx : Context) (scripts : Scripts) (trees : List (RoseTree RuleIdOrCustom))
    (id : Nat) (log more : List Chunk) (s s' : ChunkStore × ChunkFiles) : Prop where
  records : Records ctx scripts trees (log ++ more) s'.1 s'.2
  trees : s'.1.trees = s.1.trees
  same : more = [] → s' = s
  place : ∀ c ∈ more, c.tid = id

theorem Extends.refl {id : Nat} {s : ChunkStore × ChunkFiles}
    (h : Records ctx scripts trees log s.1 s.2) : Extends ctx scripts trees id log [] s s := by
  constructor
  · rw [List.append_nil]
    exact h
  · rfl
  · exact fun _ => rfl
  · exact fun c hc => absurd hc List.not_mem_nil

theorem Extends.trans {id : Nat} {more more' : List Chunk} {s s' s'' : ChunkStore × ChunkFiles}
    (h : Extends ctx scripts trees id log more s s')
    (h' : Extends ctx scripts trees id (log ++ more) more' s' s'') :
    Extends ctx scripts trees id log (more ++ more') s s'' := by
  constructor
  · rw [← List.append_assoc]
    exact h'.records
  · exact h'.trees.trans h.trees
  · intro hnil
    obtain ⟨hmore, hmore'⟩ := List.append_eq_nil_iff.mp hnil
    exact (h'.same hmore').trans (h.same hmore)
  · intro c hc
    rcases List.mem_append.mp hc with hc | hc
    · exact h.place c hc
    · exact h'.place c hc

theorem Holds.append {sub : RoseTree RuleIdOrCustom} (h : Holds ctx scripts log sub)
    (more : List Chunk) : Holds ctx scripts (log ++ more) sub := by
  obtain ⟨text, htext, hmem⟩ := h
  refine ⟨text, htext, ?_⟩
  rw [List.map_append]
  exact List.mem_append_left _ hmem

/-- With enough fuel, all texts of a tree are written. -/
def Enough (ctx : Context) (scripts : Scripts) (tree : RoseTree RuleIdOrCustom) (fuel : Nat) :
    Prop :=
  ∀ n sub text, tree.subtree? n = some sub → sub.text ctx scripts = some text →
    Unparser.unparse (Tree.layOut tree) ctx scripts fuel n = some (text, n + sub.size)

theorem exists_enough (scripts : Scripts) {tree : RoseTree RuleIdOrCustom} {root : NTermId}
    (htree : Derives ctx root tree) :
    ∃ enough, ∀ fuel, enough ≤ fuel → Enough ctx scripts tree fuel := by
  have hnodes := Turn.exists_enough (k := tree.size) (P := fun n fuel => ∀ sub text,
    tree.subtree? n = some sub → sub.text ctx scripts = some text →
      Unparser.unparse (Tree.layOut tree) ctx scripts fuel n = some (text, n + sub.size)) ?_
  · obtain ⟨enough, henough⟩ := hnodes
    refine ⟨enough, fun fuel hfuel n sub text hsub htext => ?_⟩
    have hwithin := subtree?_within hsub
    have hpos := size_pos sub
    exact henough fuel hfuel n (by omega) sub text hsub htext
  · intro n hn
    obtain ⟨sub, hsub⟩ := exists_subtree? hn
    obtain ⟨nt, hderives, -⟩ := htree.subtree? hsub
    have hrun := Unparser.unparse_of_hasLabels scripts hderives (Unparser.hasLabels_layOut hsub)
    cases htext : sub.text ctx scripts with
    | none =>
        refine ⟨0, fun fuel _ sub' text' hsub' htext' => ?_⟩
        obtain rfl := Option.some.inj (hsub.symm.trans hsub')
        rw [htext] at htext'
        cases htext'
    | some text =>
        rw [htext] at hrun
        obtain ⟨enough, henough⟩ := hrun
        refine ⟨enough, fun fuel hfuel sub' text' hsub' htext' => ?_⟩
        obtain rfl := Option.some.inj (hsub.symm.trans hsub')
        obtain rfl := Option.some.inj (htext.symm.trans htext')
        exact henough fuel hfuel

section

variable {creates : Nat → List UInt8 → Bool} {id : Nat} {tree : RoseTree RuleIdOrCustom}
  {root : NTermId} {s : ChunkStore × ChunkFiles}

theorem addChunk_extends (hcreates : ∀ k text, creates k text = true)
    (htree : Derives ctx root tree) (hid : trees[id]? = some tree)
    (h : Records ctx scripts trees log s.1 s.2) {n : NodeId} {sub : RoseTree RuleIdOrCustom}
    (hsub : tree.subtree? n = some sub)
    (htext : sub.size ≤ 30 → ∃ text, sub.text ctx scripts = some text) (new : Bool) :
    ∃ s' more, (∀ fuel, Enough ctx scripts tree fuel →
        addChunk ctx scripts creates fuel (Tree.layOut tree) id (s, new) n =
          some (s', new || !more.isEmpty)) ∧
      Extends ctx scripts trees id log more s s' ∧
      (sub.size ≤ 30 → Holds ctx scripts (log ++ more) sub) := by
  obtain ⟨store, files⟩ := s
  have hnode : (Tree.layOut tree).sizes[n]? = some sub.size := Tree.subtreeSize_layOut hsub
  by_cases hsize : sub.size ≤ 30
  · obtain ⟨text, htext⟩ := htext hsize
    by_cases hseen : text ∈ store.seenOutputs
    · refine ⟨(store, files), [], fun fuel hfuel => ?_, .refl h, fun _ => ?_⟩
      · simp only [addChunk, hnode, if_neg (Nat.not_lt.mpr hsize), hfuel n sub text hsub htext,
          if_pos hseen, Option.bind_eq_bind, Option.bind_some]
        rw [List.isEmpty_nil, Bool.not_true, Bool.or_false]
      · rw [List.append_nil]
        exact ⟨text, htext, (h.seen text).mp hseen⟩
    · obtain ⟨nt, hderives, -⟩ := htree.subtree? hsub
      obtain ⟨rule, hrule, rfl⟩ := Tree.getRule_layOut hsub hderives
      obtain ⟨rid, hrid⟩ : ∃ rid, sub.labels.head?.map RuleIdOrCustom.id = some rid := by
        cases sub with
        | node label children => exact ⟨label.id, rfl⟩
      let c : Chunk := ⟨rule.nonterm, rid, id, n, text⟩
      have hin : c.IsIn ctx scripts trees tree sub := ⟨hid, hsub, hderives, hrid, hsize, htext⟩
      have hpush := h.push hin hseen
      refine ⟨(_, _), [c], fun fuel hfuel => ?_, ⟨hpush, rfl, fun hnil => ?_, ?_⟩,
        fun _ => ⟨text, htext, ?_⟩⟩
      · simp only [addChunk, hnode, if_neg (Nat.not_lt.mpr hsize), hfuel n sub text hsub htext,
          if_neg hseen, hrule, if_pos (hcreates _ _), Option.bind_eq_bind, Option.bind_some,
          Option.map_some]
        rw [List.isEmpty_cons, Bool.not_false, Bool.or_true]
        rfl
      · exact absurd hnil (List.cons_ne_nil _ _)
      · exact fun c' hc' => congrArg Chunk.tid (List.mem_singleton.mp hc')
      · simp [c]
  · refine ⟨(store, files), [], fun fuel _ => ?_, .refl h, fun hle => absurd hle hsize⟩
    simp only [addChunk, hnode, if_pos (Nat.lt_of_not_le hsize), Option.bind_eq_bind,
      Option.bind_some]
    rw [List.isEmpty_nil, Bool.not_true, Bool.or_false]

/-- The loop over nodes of a tree stores the texts of those that are small. -/
theorem addChunks_extends (hcreates : ∀ k text, creates k text = true)
    (htree : Derives ctx root tree) (hid : trees[id]? = some tree)
    (htexts : ∀ n sub, tree.subtree? n = some sub → sub.size ≤ 30 →
      ∃ text, sub.text ctx scripts = some text) {nodes : List NodeId}
    (hnodes : ∀ n ∈ nodes, n < tree.size) (h : Records ctx scripts trees log s.1 s.2)
    (new : Bool) :
    ∃ s' more, (∀ fuel, Enough ctx scripts tree fuel →
        nodes.foldlM (addChunk ctx scripts creates fuel (Tree.layOut tree) id) (s, new) =
          some (s', new || !more.isEmpty)) ∧
      Extends ctx scripts trees id log more s s' ∧
      ∀ n ∈ nodes, ∀ sub, tree.subtree? n = some sub → sub.size ≤ 30 →
        Holds ctx scripts (log ++ more) sub := by
  induction nodes generalizing log s new with
  | nil =>
      refine ⟨s, [], fun fuel _ => ?_, .refl h, fun n hn => absurd hn List.not_mem_nil⟩
      rw [List.isEmpty_nil, Bool.not_true, Bool.or_false]
      rfl
  | cons n nodes ih =>
      obtain ⟨hn, hnodes⟩ := List.forall_mem_cons.mp hnodes
      obtain ⟨sub, hsub⟩ := exists_subtree? hn
      obtain ⟨s1, first, hfirst, hextends, hholds⟩ :=
        addChunk_extends hcreates htree hid h hsub (htexts n sub hsub) new
      obtain ⟨s2, more, hrest, hextends', hholds'⟩ :=
        ih hnodes hextends.records (new || !first.isEmpty)
      refine ⟨s2, first ++ more, fun fuel hfuel => ?_, hextends.trans hextends',
        fun n' hn' sub' hsub' hsize => ?_⟩
      · have hnew : (new || !first.isEmpty || !more.isEmpty) =
            (new || !(first ++ more).isEmpty) := by
          cases first with
          | nil => rw [List.isEmpty_nil, Bool.not_true, Bool.or_false, List.nil_append]
          | cons c first => simp
        rw [List.foldlM_cons, hfirst fuel hfuel, Option.bind_eq_bind, Option.bind_some,
          hrest fuel hfuel, hnew]
      · rw [← List.append_assoc]
        rcases List.mem_cons.mp hn' with rfl | hn'
        · obtain rfl := Option.some.inj (hsub.symm.trans hsub')
          exact (hholds hsize).append more
        · exact hholds' n' hn' sub' hsub' hsize

end

/-! ## Runs -/

/-- The store after trees have been added: it keeps those of them that have a chunk. -/
structure Stores (ctx : Context) (scripts : Scripts) (added trees : List (RoseTree RuleIdOrCustom))
    (log : List Chunk) (s : ChunkStore × ChunkFiles) : Prop where
  records : Records ctx scripts trees log s.1 s.2
  kept : s.1.trees = trees.map Tree.layOut
  sublist : trees.Sublist added
  used : ∀ tid < trees.length, ∃ c ∈ log, c.tid = tid
  complete : ∀ tree ∈ added, ∀ n sub, tree.subtree? n = some sub → sub.size ≤ 30 →
    Holds ctx scripts log sub

theorem Stores.new : Stores ctx scripts [] [] [] (ChunkStore.new, ∅) := by
  constructor
  · exact .new
  · rfl
  · exact List.Sublist.refl _
  · exact fun tid htid => absurd htid (Nat.not_lt_zero _)
  · exact fun tree htree => absurd htree List.not_mem_nil

/-- The scripts in the small subtrees of a tree do not fail. -/
def HasTexts (ctx : Context) (scripts : Scripts) (tree : RoseTree RuleIdOrCustom) : Prop :=
  ∀ n sub, tree.subtree? n = some sub → sub.size ≤ 30 → ∃ text, sub.text ctx scripts = some text

theorem Stores.addTree {creates : Nat → List UInt8 → Bool} {tree : RoseTree RuleIdOrCustom}
    {root : NTermId} {s : ChunkStore × ChunkFiles} {added : List (RoseTree RuleIdOrCustom)}
    (hcreates : ∀ k text, creates k text = true) (htree : Derives ctx root tree)
    (htexts : HasTexts ctx scripts tree) (h : Stores ctx scripts added trees log s) :
    ∃ s' trees' more, (∀ fuel, Enough ctx scripts tree fuel →
        addTree ctx scripts creates fuel s (Tree.layOut tree) = some s') ∧
      Stores ctx scripts (added ++ [tree]) trees' (log ++ more) s' := by
  have hid : (trees ++ [tree])[s.1.trees.length]? = some tree := by
    rw [h.kept, List.length_map, List.getElem?_concat_length]
  have hnodes : ∀ n ∈ List.range tree.size, n < tree.size := fun n hn => List.mem_range.mp hn
  obtain ⟨s', more, hrun, hextends, hholds⟩ := addChunks_extends hcreates htree hid htexts
    hnodes (h.records.more_trees [tree]) false
  have hadd : ∀ fuel, Enough ctx scripts tree fuel →
      ChunkStore.addTree ctx scripts creates fuel s (Tree.layOut tree) =
        some (if !more.isEmpty then { s'.1 with trees := s'.1.trees ++ [Tree.layOut tree] }
          else s'.1, s'.2) := by
    intro fuel hfuel
    rw [ChunkStore.addTree, Tree.size_layOut, hrun fuel hfuel]
    rfl
  have hcomplete : ∀ tree' ∈ added ++ [tree], ∀ n sub, tree'.subtree? n = some sub →
      sub.size ≤ 30 → Holds ctx scripts (log ++ more) sub := by
    intro tree' hmem n sub hsub hsize
    rcases List.mem_append.mp hmem with hmem | hmem
    · exact (h.complete tree' hmem n sub hsub hsize).append more
    · obtain rfl := List.mem_singleton.mp hmem
      have hwithin := subtree?_within hsub
      have hpos := size_pos sub
      exact hholds n (List.mem_range.mpr (by omega)) sub hsub hsize
  cases more with
  | nil =>
      -- nothing is new, and the tree is dropped
      obtain rfl := hextends.same rfl
      refine ⟨s', trees, [], hadd, ?_⟩
      rw [List.append_nil] at hcomplete ⊢
      exact { h with
        sublist := h.sublist.trans (List.sublist_append_left _ _)
        complete := hcomplete }
  | cons c more =>
      refine ⟨_, trees ++ [tree], c :: more, hadd, ?_⟩
      constructor
      · exact { hextends.records with }
      · show s'.1.trees ++ [Tree.layOut tree] = (trees ++ [tree]).map Tree.layOut
        rw [hextends.trees, h.kept, List.map_append]
        rfl
      · exact h.sublist.append (List.Sublist.refl _)
      · intro tid htid
        rw [List.length_append, List.length_singleton] at htid
        rcases Nat.lt_succ_iff_lt_or_eq.mp htid with hlt | rfl
        · obtain ⟨c', hc', heq⟩ := h.used tid hlt
          exact ⟨c', List.mem_append_left _ hc', heq⟩
        · refine ⟨c, List.mem_append_right _ (List.mem_cons_self ..), ?_⟩
          rw [hextends.place c (List.mem_cons_self ..), h.kept, List.length_map]
      · exact hcomplete

/-! ## Alternatives -/

/-- A chunk of the nonterminal with another rule. There is none only if all its chunks have
this rule. -/
def Offers (ctx : Context) (scripts : Scripts) (trees : List (RoseTree RuleIdOrCustom))
    (log : List Chunk) (nt : NTermId) (rid : RuleId) : Option (Tree × NodeId) → Prop
  | none => ∀ c ∈ log, c.nt = nt → c.rule = rid
  | some (t, n) => ∃ c ∈ log, c.nt = nt ∧ c.rule ≠ rid ∧
      ∃ tree sub, c.IsIn ctx scripts trees tree sub ∧ t = Tree.layOut tree ∧ n = c.nid

theorem rules_layOut {tree sub : RoseTree RuleIdOrCustom} {n : NodeId}
    (h : tree.subtree? n = some sub) :
    ∃ label, (Tree.layOut tree).rules[n]? = some label ∧ sub.labels.head? = some label := by
  obtain ⟨front, back, rfl, hlabels, -⟩ := labels_subtree? h
  cases sub with
  | node label children =>
      refine ⟨label, ?_, rfl⟩
      show tree.labels[front.length]? = some label
      rw [hlabels, List.append_assoc, List.getElem?_append_right (Nat.le_refl _), Nat.sub_self]
      rfl

theorem Chunk.IsIn.rule_layOut {c : Chunk} {tree sub : RoseTree RuleIdOrCustom}
    (h : c.IsIn ctx scripts trees tree sub) :
    ∃ label, (Tree.layOut tree).rules[c.nid]? = some label ∧ label.id = c.rule := by
  obtain ⟨label, hlabel, hhead⟩ := rules_layOut h.node
  have hid := h.rule
  rw [hhead] at hid
  exact ⟨label, hlabel, Option.some.inj hid⟩

theorem relevant_eq (hkept : store.trees = trees.map Tree.layOut) (rid : RuleId)
    {chunks : List Chunk} (hchunks : ∀ c ∈ chunks, ∃ tree sub, c.IsIn ctx scripts trees tree sub) :
    store.relevant rid (chunks.map Chunk.place) =
      some ((chunks.filter (·.rule ≠ rid)).map Chunk.place) := by
  induction chunks with
  | nil => rfl
  | cons c chunks ih =>
      obtain ⟨⟨tree, sub, hin⟩, hchunks⟩ := List.forall_mem_cons.mp hchunks
      obtain ⟨label, hlabel, hid⟩ := hin.rule_layOut
      have htree : store.trees[c.tid]? = some (Tree.layOut tree) := by
        rw [hkept, List.getElem?_map, hin.kept, Option.map_some]
      simp only [List.map_cons, Chunk.place, relevant, htree, hlabel, hid, Option.bind_eq_bind,
        Option.bind_some, ih hchunks]
      by_cases hrule : c.rule = rid
      · simp [hrule]
      · simp [hrule, Chunk.place]

theorem getAlternativeTo_offers {R : Type} [Rand R]
    (h : Records ctx scripts trees log store files) (hkept : store.trees = trees.map Tree.layOut)
    {rid : RuleId} {rule : Rule} (hrule : ctx.getRule rid = some rule) (r : R) :
    ∃ alternative r', store.getAlternativeTo rid ctx r = some (alternative, r') ∧
      Offers ctx scripts trees log rule.nonterm rid alternative := by
  have hnt : ctx.getNt (.rule rid) = some rule.nonterm := by
    rw [Context.getNt]
    show (ctx.getRule rid).map _ = _
    rw [hrule, Option.map_some]
  have hlisted := h.listed rule.nonterm
  simp only [getAlternativeTo, hnt, Option.bind_eq_bind, Option.bind_some]
  cases hlookup : store.ntsToChunks.lookup rule.nonterm with
  | none =>
      refine ⟨none, r, rfl, fun c hc hcnt => ?_⟩
      rw [hlookup, Option.getD_none, eq_comm, List.map_eq_nil_iff,
        List.filter_eq_nil_iff] at hlisted
      exact absurd (decide_eq_true hcnt) (hlisted c hc)
  | some chunks =>
      rw [hlookup, Option.getD_some] at hlisted
      subst hlisted
      have hchunks : ∀ c ∈ log.filter (·.nt = rule.nonterm), ∃ tree sub,
          c.IsIn ctx scripts trees tree sub := fun c hc => h.chunks c (List.mem_filter.mp hc).1
      simp only [relevant_eq hkept rid hchunks, Option.bind_some]
      cases hchosen : (Rand.chooseIter _ r : Option (Nat × NodeId) × R) with
      | mk selected r' =>
          cases selected with
          | none =>
              refine ⟨none, r', rfl, fun c hc hcnt => ?_⟩
              by_contra hne
              have hmem : c ∈ (log.filter (·.nt = rule.nonterm)).filter (·.rule ≠ rid) := by
                simp [hc, hcnt, hne]
              have hplace : c.place ∈ ((log.filter (·.nt = rule.nonterm)).filter
                  (·.rule ≠ rid)).map Chunk.place := List.mem_map_of_mem hmem
              have hsome := Rand.chooseIter_isSome (List.ne_nil_of_mem hplace) r
              rw [hchosen] at hsome
              cases hsome
          | some place =>
              have hmem := Rand.chooseIter_mem (congrArg Prod.fst hchosen)
              obtain ⟨c, hc, rfl⟩ := List.mem_map.mp hmem
              obtain ⟨hc, hne⟩ := List.mem_filter.mp hc
              obtain ⟨hc, hcnt⟩ := List.mem_filter.mp hc
              obtain ⟨tree, sub, hin⟩ := h.chunks c hc
              have htree : store.trees[c.tid]? = some (Tree.layOut tree) := by
                rw [hkept, List.getElem?_map, hin.kept, Option.map_some]
              refine ⟨some (Tree.layOut tree, c.nid), r', ?_, c, hc, of_decide_eq_true hcnt,
                of_decide_eq_true hne, tree, sub, hin, rfl, rfl⟩
              simp only [Chunk.place, htree, Option.bind_some]

theorem scriptless_sums : Context.sums.Scriptless := by
  intro r
  simp [Context.sums, Context.addRule, Context.new]

end ChunkStore

end Libaflmm
