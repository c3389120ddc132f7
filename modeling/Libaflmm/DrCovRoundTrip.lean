import Libaflmm.DrCovLines

/-!
# Writing and reading DrCov files

What is written is read again when the paths of the modules have nothing in
them that the lines are taken apart at, and the blocks fit in the fields of
their entries and have modules that are the first ones with their ids. Nothing
else is read as it was written.
-/

namespace Libaflmm

namespace DrCov

open Text

/-! ## Paths -/

/-- The path is read as it was written. -/
structure PathSurvives (path : Text) : Prop where
  newline : '\n' ∉ path
  separator : ¬ ", ".toList <:+: path
  trimmed : trim path = path
  unquoted : ¬ (path.head? = some '"' ∧ path.getLast? = some '"')

theorem firstPiece_line {path : Text} (h : ¬ ", ".toList <:+: path) :
    firstPiece (path ++ ['\n']) = path ++ ['\n'] := by
  have hinfix : ¬ ", ".toList <:+: path ++ ['\n'] := by
    intro hinfix
    rw [List.infix_concat_iff] at hinfix
    rcases hinfix with hsuffix | hinfix
    · obtain ⟨pre, hpre⟩ := hsuffix
      have hlast := congrArg List.getLast? hpre
      rw [List.getLast?_append, List.getLast?_concat] at hlast
      have hblank : (' ' : Char) = '\n' := Option.some.inj hlast
      exact absurd hblank (by decide)
    · exact h hinfix
  rw [firstPiece, split_eq_self hinfix]
  rfl

theorem trim_newline (path : Text) : trim (path ++ ['\n']) = trim path :=
  trim_append_whitespace rfl path

theorem parsePath_of_survives {path : Text} (h : PathSurvives path) :
    parsePath (firstPiece (path ++ ['\n'])) = some path := by
  rw [firstPiece_line h.separator, parsePath, trim_newline, h.trimmed]
  exact if_neg h.unquoted

theorem parsePath_cases {text path : Text} (h : parsePath text = some path) :
    (path = trim text ∧ ¬ (path.head? = some '"' ∧ path.getLast? = some '"')) ∨
      path.length + 2 ≤ (trim text).length := by
  rw [parsePath] at h
  split at h
  · split at h
    · next hlen =>
        obtain rfl := Option.some.inj h
        right
        rw [List.length_dropLast, List.length_tail]
        omega
    · cases h
  · next hquoted =>
      obtain rfl := Option.some.inj h
      exact .inl ⟨rfl, hquoted⟩

theorem length_parsePath_le {text path : Text} (h : parsePath text = some path) :
    path.length ≤ text.length := by
  have htrim := length_trim_le text
  rcases parsePath_cases h with ⟨rfl, -⟩ | hlen
  · exact htrim
  · omega

/-- What is read of a path is no longer than it, and the path only if it survives. -/
theorem path_of_parsePath {part path : Text} (hnewline : '\n' ∉ part)
    (h : parsePath (firstPiece (part ++ ['\n'])) = some path) :
    path.length ≤ part.length ∧ (path = part → PathSurvives part) := by
  by_cases hinfix : ", ".toList <:+: part
  · have hline : ", ".toList <:+: part ++ ['\n'] := hinfix.trans (List.infix_append' [] part ['\n'])
    have hne : ", ".toList ≠ [] := by decide
    obtain ⟨piece, pieces, hsplit, hlen⟩ := exists_split hne hline
    have hpiece : firstPiece (part ++ ['\n']) = piece := by
      rw [firstPiece, hsplit]
      rfl
    rw [hpiece] at h
    have hpath := length_parsePath_le h
    have hseparator : ", ".toList.length = 2 := rfl
    rw [hseparator, List.length_append, List.length_singleton] at hlen
    refine ⟨by omega, fun heq => ?_⟩
    have hlength := congrArg List.length heq
    omega
  · rw [firstPiece_line hinfix] at h
    have htrim := length_trim_le part
    rcases parsePath_cases h with ⟨hpath, hquoted⟩ | hlen
    · rw [trim_newline] at hpath
      refine ⟨hpath ▸ htrim, fun heq => ⟨hnewline, hinfix, ?_, ?_⟩⟩
      · rw [← hpath, heq]
      · rwa [← heq]
    · rw [trim_newline] at hlen
      refine ⟨by omega, fun heq => ?_⟩
      have hlength := congrArg List.length heq
      omega

/-! ## Modules -/

section

variable {M : Type} [RangeMap M]

/-- The lines of the modules. -/
def moduleLines (rs : List ModuleRange) : List UInt8 :=
  linesOf (rs.map fun r => toModuleLine (entryOf r r.path))

def InMemory (rs : List ModuleRange) : Prop := ∀ r ∈ rs, r.start < 2 ^ 64 ∧ r.stop < 2 ^ 64

theorem moduleLines_cons (r : ModuleRange) (rs : List ModuleRange) (rest : List UInt8) :
    moduleLines (r :: rs) ++ rest =
      encode (beforePath r ++ r.path ++ ['\n']) ++ (moduleLines rs ++ rest) := by
  rw [moduleLines, List.map_cons, linesOf_cons_append, toModuleLine_entryOf]
  rfl

/-- The modules whose paths survive. -/
theorem run_readModules {rs : List ModuleRange} (hmem : InMemory rs)
    (hpaths : ∀ r ∈ rs, PathSurvives r.path) (rest : List UInt8) :
    (readModules rs.length).run (moduleLines rs ++ rest) =
      some (.ok (rs.map fun r => entryOf r r.path), rest) := by
  induction rs with
  | nil => rfl
  | cons r rs ih =>
      rw [InMemory, List.forall_mem_cons] at hmem
      rw [List.forall_mem_cons] at hpaths
      have hmodule := run_readModule hmem.1.1 hmem.1.2 hpaths.1.newline (moduleLines rs ++ rest)
      rw [parsePath_of_survives hpaths.1, Option.map_some] at hmodule
      rw [moduleLines_cons, List.length_cons, readModules, Call.run_bind_of_ok hmodule,
        Call.run_bind_of_ok (ih hmem.2 hpaths.2)]
      rfl

/-- What a round trip keeps of a module. -/
def key (e : DrCovModuleEntry) : UInt16 × Nat × Nat × Text := (e.id, e.base, e.stop, e.path)

/-- **Paths that do not survive** are not read as they were written. -/
theorem survives_of_readModules {rs : List ModuleRange} (hmem : InMemory rs)
    {rest rest' : List UInt8} {es : List DrCovModuleEntry}
    (hrun : (readModules rs.length).run (moduleLines rs ++ rest) = some (.ok es, rest'))
    (hkeys : es.map key = rs.map fun r => key (entryOf r r.path)) :
    ∀ r ∈ rs, PathSurvives r.path := by
  induction rs generalizing es rest' with
  | nil => exact fun r hr => (nomatch hr)
  | cons r rs ih =>
      rw [InMemory, List.forall_mem_cons] at hmem
      rw [moduleLines_cons, List.length_cons, readModules] at hrun
      obtain ⟨e, mid, hmodule, htail⟩ := Call.run_bind_eq_ok.mp hrun
      obtain ⟨es', mid', hmodules, hpure⟩ := Call.run_bind_eq_ok.mp htail
      obtain ⟨hes, -⟩ := Prod.mk.inj (Option.some.inj hpure)
      obtain rfl := Except.ok.inj hes
      obtain ⟨hkey, hkeys'⟩ := List.cons.inj hkeys
      have hpath : e.path = r.path := congrArg (fun k => k.2.2.2) hkey
      by_cases hnewline : '\n' ∈ r.path
      · -- the line ends in the path
        obtain ⟨part, more, hsplit, hpart⟩ := List.eq_append_cons_of_mem hnewline
        have hbytes : encode (beforePath r ++ r.path ++ ['\n']) ++ (moduleLines rs ++ rest) =
            encode (beforePath r ++ part ++ ['\n']) ++
              (encode (more ++ ['\n']) ++ (moduleLines rs ++ rest)) := by
          have hline : beforePath r ++ r.path ++ ['\n'] =
              beforePath r ++ part ++ ['\n'] ++ (more ++ ['\n']) := by
            rw [hsplit]
            simp
          rw [hline, encode_append, List.append_assoc]
        rw [hbytes, run_readModule hmem.1.1 hmem.1.2 hpart] at hmodule
        obtain ⟨path', hparse, hentry⟩ := Option.map_eq_some_iff.mp hmodule
        obtain ⟨hok, -⟩ := Prod.mk.inj hentry
        obtain rfl := Except.ok.inj hok
        have hle := (path_of_parsePath hpart hparse).1
        have hlength := congrArg List.length (hpath.trans hsplit)
        simp only [entryOf, List.length_append, List.length_cons] at hlength
        omega
      · rw [run_readModule hmem.1.1 hmem.1.2 hnewline] at hmodule
        obtain ⟨path', hparse, hentry⟩ := Option.map_eq_some_iff.mp hmodule
        obtain ⟨hok, rfl⟩ := Prod.mk.inj hentry
        obtain rfl := Except.ok.inj hok
        exact List.forall_mem_cons.mpr ⟨(path_of_parsePath hnewline hparse).2 hpath,
          ih hmem.2 hmodules hkeys'⟩

/-! ## Basic blocks -/

/-- The first element with a property is before all others with it. -/
theorem rel_of_find? {α : Type} {R : α → α → Prop} {p : α → Bool} {l : List α} {x : α}
    (hl : l.Pairwise R) (h : l.find? p = some x) : ∀ y ∈ l, p y = true → y = x ∨ R x y := by
  induction l with
  | nil => cases h
  | cons a l ih =>
      rw [List.pairwise_cons] at hl
      rw [List.find?_cons] at h
      split at h
      · obtain rfl := Option.some.inj h
        intro y hy _
        rcases List.mem_cons.mp hy with rfl | hy
        · exact .inl rfl
        · exact .inr (hl.1 y hy)
      · next ha =>
          intro y hy hp
          rcases List.mem_cons.mp hy with rfl | hy
          · rw [ha] at hp
            cases hp
          · exact ih hl.2 h y hy hp

/-- The block is inside of a module. -/
def Inside (m : M) (b : DrCovBasicBlock) : Prop :=
  ∃ r ∈ RangeMap.iter m, r.start ≤ b.start ∧ b.start < r.stop ∧ b.start ≤ b.stop ∧ b.stop ≤ r.stop

/-- The block fits in the fields of its entry, and no module before its own one
has the id of that. -/
def BlockFits (m : M) (b : DrCovBasicBlock) : Prop :=
  ∀ r ∈ RangeMap.iter m, r.start ≤ b.start → b.start < r.stop →
    b.start - r.start < 2 ^ 32 ∧ b.stop - b.start < 2 ^ 16 ∧
      ∀ r' ∈ RangeMap.iter m, r'.stop ≤ r.start → r'.id ≠ r.id

theorem getKeyValue_of_mem {m : M} {r : ModuleRange} (hr : r ∈ RangeMap.iter m) {addr : Nat}
    (hle : r.start ≤ addr) (hlt : addr < r.stop) : RangeMap.getKeyValue m addr = some r := by
  rw [RangeMap.getKeyValue_eq]
  have hcontains : r.contains addr = true := decide_eq_true ⟨hle, hlt⟩
  obtain ⟨r', hfind⟩ := Option.isSome_iff_exists.mp
    (List.find?_isSome (p := fun r : ModuleRange => r.contains addr) |>.mpr ⟨r, hr, hcontains⟩)
  rcases rel_of_find? (RangeMap.sorted m) hfind r hr hcontains with heq | hstop
  · rw [hfind, heq]
  · have hfound := List.find?_some hfind
    have hin : r'.start ≤ addr ∧ addr < r'.stop := of_decide_eq_true hfound
    omega

theorem checkedSub_of_le {a b : Nat} (h : b ≤ a) : checkedSub a b = some (a - b) := if_pos h

theorem checkedAdd_of_lt {a b : Nat} (h : a + b < 2 ^ 64) : checkedAdd a b = some (a + b) :=
  if_pos h

/-- The first module with the id of a module is that one, or is before it. -/
theorem moduleById_of_mem {m : M} {r : ModuleRange} (hr : r ∈ RangeMap.iter m) :
    ∃ r' ∈ RangeMap.iter m, r'.id = r.id ∧
      moduleById (moduleEntries m) r.id = some (entryOf r' r'.path) ∧
      ∀ r'' ∈ RangeMap.iter m, r''.id = r.id → r'' = r' ∨ r'.stop ≤ r''.start := by
  obtain ⟨r', hfind⟩ := Option.isSome_iff_exists.mp
    (List.find?_isSome (p := fun r' : ModuleRange => decide (r'.id = r.id)) |>.mpr
      ⟨r, hr, decide_eq_true rfl⟩)
  have hfound := List.find?_some hfind
  refine ⟨r', List.mem_of_find?_eq_some hfind, of_decide_eq_true hfound, ?_,
    fun r'' hr'' hid => rel_of_find? (RangeMap.sorted m) hfind r'' hr'' (decide_eq_true hid)⟩
  rw [moduleById, moduleEntries, List.find?_map]
  exact congrArg (Option.map _) hfind

/-- A block that is written and read again. -/
theorem basicBlock_of_inside {m : M} {b : DrCovBasicBlock} (hb : Inside m b) :
    ∃ e b', basicBlockEntry m b = some e ∧
      basicBlock (moduleEntries m) e = some (some b') ∧ (b' = b ↔ BlockFits m b) := by
  obtain ⟨r, hr, hle, hlt, hsize, hstop⟩ := hb
  obtain ⟨start, stop⟩ := b
  dsimp only at hle hlt hsize hstop
  have hentry : basicBlockEntry m ⟨start, stop⟩ =
      some ⟨.ofNat (start - r.start), .ofNat (stop - start), r.id⟩ := by
    rw [basicBlockEntry, getKeyValue_of_mem hr hle hlt, Option.bind_eq_bind, Option.bind_some]
    dsimp only
    rw [checkedSub_of_le hle, checkedSub_of_le hsize]
    rfl
  obtain ⟨r', hr', hid, hmodule, hfirst⟩ := moduleById_of_mem hr
  have hbound := RangeMap.stop_lt m r hr
  have hnonempty := RangeMap.start_lt m r' hr'
  have hbefore : r = r' ∨ r'.stop ≤ r.start := hfirst r hr rfl
  have hbase : r'.start ≤ r.start := by
    rcases hbefore with heq | hle'
    · rw [heq]
    · omega
  have hoffset := Nat.mod_le (start - r.start) (2 ^ 32)
  have hlength := Nat.mod_le (stop - start) (2 ^ 16)
  refine ⟨_, ⟨r'.start + (start - r.start) % 2 ^ 32,
    r'.start + (start - r.start) % 2 ^ 32 + (stop - start) % 2 ^ 16⟩, hentry, ?_, ?_⟩
  · rw [basicBlock, hmodule]
    simp only [UInt32.toNat_ofNat', UInt16.toNat_ofNat', entryOf]
    rw [checkedAdd_of_lt (by omega)]
    simp only [Option.bind_eq_bind, Option.bind_some]
    rw [checkedAdd_of_lt (by omega)]
    rfl
  rw [DrCovBasicBlock.mk.injEq]
  constructor
  · rintro ⟨hstart', hstop'⟩
    obtain rfl : r = r' := hbefore.resolve_right (by omega)
    intro r'' hr'' hle'' hlt''
    obtain rfl : r'' = r := Option.some.inj ((getKeyValue_of_mem hr'' hle'' hlt'').symm.trans
      (getKeyValue_of_mem hr hle hlt))
    dsimp only at hstart' hstop' hle'' hlt'' ⊢
    refine ⟨?_, ?_, fun other hother hother' hid' => ?_⟩
    · have hmod := Nat.mod_lt (start - r''.start) (Nat.two_pow_pos 32)
      omega
    · have hmod := Nat.mod_lt (stop - start) (Nat.two_pow_pos 16)
      omega
    · have hlt' := RangeMap.start_lt m other hother
      rcases hfirst other hother hid' with rfl | hle'
      · omega
      · omega
  · intro hfits
    obtain ⟨hoffset', hwidth, hids⟩ := hfits r hr hle hlt
    obtain rfl : r = r' := hbefore.resolve_right fun hle' => hids r' hr' hle' hid
    dsimp only at hoffset' hwidth
    rw [Nat.mod_eq_of_lt hoffset', Nat.mod_eq_of_lt hwidth]
    omega

/-- Blocks that are written and read again. -/
theorem basicBlocks_of_inside {m : M} {blocks : List DrCovBasicBlock}
    (h : ∀ b ∈ blocks, Inside m b) :
    ∃ es blocks', basicBlockEntries m blocks = some es ∧ es.length = blocks.length ∧
      basicBlocks ⟨moduleEntries m, es⟩ = some blocks' ∧
      (blocks' = blocks ↔ ∀ b ∈ blocks, BlockFits m b) := by
  suffices hmapM : ∃ es blocks', basicBlockEntries m blocks = some es ∧
      es.length = blocks.length ∧
      es.mapM (basicBlock (moduleEntries m)) = some (blocks'.map some) ∧
      (blocks' = blocks ↔ ∀ b ∈ blocks, BlockFits m b) by
    obtain ⟨es, blocks', hentries, hlen, hblocks, hfits⟩ := hmapM
    refine ⟨es, blocks', hentries, hlen, ?_, hfits⟩
    rw [basicBlocks, hblocks, Option.map_some, List.filterMap_map]
    exact congrArg some List.filterMap_some
  induction blocks with
  | nil => exact ⟨[], [], rfl, rfl, rfl, by simp⟩
  | cons b blocks ih =>
      rw [List.forall_mem_cons] at h
      obtain ⟨e, b', hentry, hblock, hfits⟩ := basicBlock_of_inside h.1
      obtain ⟨es, blocks', hentries, hlen, hblocks, hfits'⟩ := ih h.2
      refine ⟨e :: es, b' :: blocks', ?_, congrArg (· + 1) hlen, ?_, ?_⟩
      · rw [basicBlockEntries] at hentries ⊢
        simp [List.mapM_cons, hentry, hentries]
      · simp [List.mapM_cons, hblock, hblocks]
      · rw [List.cons.injEq, List.forall_mem_cons, hfits, hfits']

/-! ## The file -/

/-- The file behind the lines of the modules. -/
def blocksPart (es : List DrCovBasicBlockEntry) : List UInt8 :=
  linesOf [bbTable ++ (dec es.length ++ " bbs".toList)] ++ es.flatMap toBytes

def fileOf (rs : List ModuleRange) (es : List DrCovBasicBlockEntry) : List UInt8 :=
  linesOf [drcovVersion, drcovFlavor ++ " libafl".toList, moduleTable ++ dec rs.length, columns] ++
    (moduleLines rs ++ blocksPart es)

theorem linesOf_append (lines lines' : List Text) :
    linesOf (lines ++ lines') = linesOf lines ++ linesOf lines' := List.flatMap_append

theorem moduleEntries_eq (m : M) :
    moduleEntries m = (RangeMap.iter m).map fun r => entryOf r r.path := rfl

theorem write_eq {m : M} {blocks : List DrCovBasicBlock} {es : List DrCovBasicBlockEntry}
    (hes : basicBlockEntries m blocks = some es) (hlen : es.length = blocks.length) :
    write m blocks = some (fileOf (RangeMap.iter m) es) := by
  have hlines : headerLines (moduleEntries m) blocks.length =
      [drcovVersion, drcovFlavor ++ " libafl".toList,
        moduleTable ++ dec (RangeMap.iter m).length, columns] ++
        ((RangeMap.iter m).map (fun r => toModuleLine (entryOf r r.path)) ++
          [bbTable ++ (dec es.length ++ " bbs".toList)]) := by
    rw [headerLines, moduleEntries_eq, List.length_map, List.map_map, hlen]
    rfl
  rw [write, hes, hlines, linesOf_append, linesOf_append]
  simp only [fileOf, blocksPart, moduleLines, List.append_assoc]
  rfl

/-- What is written depends on the ranges of the map only. -/
theorem write_congr {m m' : M} (h : RangeMap.iter m' = RangeMap.iter m)
    (blocks : List DrCovBasicBlock) : write m' blocks = write m blocks := by
  have hmodules : moduleEntries m' = moduleEntries m := congrArg (List.map _) h
  have hentry : basicBlockEntry m' = basicBlockEntry m := by
    funext b
    rw [basicBlockEntry, basicBlockEntry, RangeMap.getKeyValue_eq, RangeMap.getKeyValue_eq, h]
  rw [write, write, hmodules, basicBlockEntries, basicBlockEntries, hentry]

/-- Disjoint ranges below a bound are not more than it. -/
theorem length_le_of_sorted {rs : List ModuleRange} {a n : Nat} (han : a ≤ n)
    (hbounds : ∀ r ∈ rs, a ≤ r.start ∧ r.start < r.stop ∧ r.stop ≤ n)
    (hsorted : rs.Pairwise fun r r' => r.stop ≤ r'.start) : a + rs.length ≤ n := by
  induction rs generalizing a with
  | nil => exact han
  | cons r rs ih =>
      rw [List.forall_mem_cons] at hbounds
      rw [List.pairwise_cons] at hsorted
      have hrest := ih (a := r.stop) hbounds.1.2.2
        (fun r' hr' => ⟨hsorted.1 r' hr', (hbounds.2 r' hr').2⟩) hsorted.2
      rw [List.length_cons]
      omega

theorem length_iter_lt (m : M) : (RangeMap.iter m).length < 2 ^ 64 := by
  have hlen := length_le_of_sorted (n := 2 ^ 64 - 1) (Nat.zero_le _)
    (fun r hr => ⟨Nat.zero_le _, RangeMap.start_lt m r hr,
      Nat.le_pred_of_lt (RangeMap.stop_lt m r hr)⟩)
    (RangeMap.sorted m)
  omega

theorem inMemory_iter (m : M) : InMemory (RangeMap.iter m) := fun r hr =>
  ⟨(RangeMap.start_lt m r hr).trans (RangeMap.stop_lt m r hr), RangeMap.stop_lt m r hr⟩

/-- The file with paths that survive. -/
theorem read_fileOf {rs : List ModuleRange} {es : List DrCovBasicBlockEntry}
    (hmem : InMemory rs) (hrs : rs.length < 2 ^ 64) (hes : es.length < 2 ^ 64)
    (hpaths : ∀ r ∈ rs, PathSurvives r.path) :
    read (fileOf rs es) = some (.ok ⟨rs.map fun r => entryOf r r.path, es⟩) := by
  rw [read, fileOf, readFile, Call.run_bind_of_ok (run_readModuleTable hrs _),
    Call.run_bind_of_ok (run_readModules hmem hpaths _), blocksPart,
    Call.run_bind_of_ok (run_readBasicBlocks hes)]
  rfl

theorem readModules_of_read {rs : List ModuleRange} {es : List DrCovBasicBlockEntry}
    {reader : DrCovReader} (hrs : rs.length < 2 ^ 64)
    (h : read (fileOf rs es) = some (.ok reader)) :
    ∃ rest, (readModules rs.length).run (moduleLines rs ++ blocksPart es) =
      some (.ok reader.moduleEntries, rest) := by
  obtain ⟨⟨_, s⟩, hrun, rfl⟩ := Option.map_eq_some_iff.mp h
  rw [fileOf, readFile, Call.run_bind_of_ok (run_readModuleTable hrs _)] at hrun
  obtain ⟨modules, rest, hmodules, htail⟩ := Call.run_bind_eq_ok.mp hrun
  obtain ⟨entries, rest', -, hpure⟩ := Call.run_bind_eq_ok.mp htail
  obtain ⟨hreader, -⟩ := Prod.mk.inj (Option.some.inj hpure)
  obtain rfl := Except.ok.inj hreader
  exact ⟨rest, hmodules⟩

/-! ## Reading what was written -/

/-- The ranges of a map are inserted again, one behind the other. -/
theorem foldlM_insert {rs : List ModuleRange} {m : M}
    (hbounds : ∀ r ∈ rs, r.start < r.stop ∧ r.stop < 2 ^ 64)
    (hsorted : (RangeMap.iter m ++ rs).Pairwise fun r r' => r.stop ≤ r'.start)
    (hcoalesced : (RangeMap.iter m ++ rs).Pairwise fun r r' =>
      r.stop = r'.start → ¬ (r.id = r'.id ∧ r.path = r'.path)) :
    ∃ m', rs.foldlM RangeMap.insert m = some m' ∧ RangeMap.iter m' = RangeMap.iter m ++ rs := by
  induction rs generalizing m with
  | nil => exact ⟨m, rfl, (List.append_nil _).symm⟩
  | cons r rs ih =>
      rw [List.forall_mem_cons] at hbounds
      have hbefore : ∀ r' ∈ RangeMap.iter m, r'.stop ≤ r.start ∧
          (r'.stop = r.start → ¬ (r'.id = r.id ∧ r'.path = r.path)) := fun r' hr' =>
        ⟨(List.pairwise_append.mp hsorted).2.2 r' hr' r List.mem_cons_self,
          (List.pairwise_append.mp hcoalesced).2.2 r' hr' r List.mem_cons_self⟩
      obtain ⟨m₁, hinsert, hiter⟩ := RangeMap.iter_insert m r hbounds.1.1 hbounds.1.2 hbefore
      have happend : RangeMap.iter m ++ r :: rs = RangeMap.iter m₁ ++ rs := by
        rw [hiter, List.append_assoc, List.singleton_append]
      rw [happend] at hsorted hcoalesced ⊢
      obtain ⟨m', hrest, hiter'⟩ := ih hbounds.2 hsorted hcoalesced
      refine ⟨m', ?_, hiter'⟩
      rw [List.foldlM_cons, hinsert]
      exact hrest

theorem moduleMap_of_entries (m : M) (es : List DrCovBasicBlockEntry) :
    ∃ m', moduleMap M ⟨moduleEntries m, es⟩ = some m' ∧ RangeMap.iter m' = RangeMap.iter m := by
  have hnew : RangeMap.iter (RangeMap.new : M) ++ RangeMap.iter m = RangeMap.iter m := by
    rw [RangeMap.iter_new, List.nil_append]
  obtain ⟨m', hfold, hiter⟩ := foldlM_insert (m := RangeMap.new)
    (fun r hr => ⟨RangeMap.start_lt m r hr, RangeMap.stop_lt m r hr⟩)
    (hnew.symm ▸ RangeMap.sorted m) (hnew.symm ▸ RangeMap.coalesced m)
  refine ⟨m', ?_, hiter.trans hnew⟩
  rw [moduleMap, moduleEntries, List.foldlM_map]
  exact hfold

end

/-! ## Round trips -/

/-- The module map and the blocks that a file is written for. A slice is not
longer than memory. -/
structure Trace (M : Type) [RangeMap M] where
  map : M
  blocks : List DrCovBasicBlock
  inside : ∀ b ∈ blocks, Inside map b
  length_lt : blocks.length < 2 ^ 64

namespace Trace

variable {M : Type} [RangeMap M]

/-- The file is read with the same modules and blocks, and when these are
written again, what is read then is the same. -/
def RoundTrips (t : Trace M) : Prop :=
  ∃ file reader, write t.map t.blocks = some file ∧ read file = some (.ok reader) ∧
    reader.moduleEntries.map key = (RangeMap.iter t.map).map (fun r => key (entryOf r r.path)) ∧
    basicBlocks reader = some t.blocks ∧
    ∃ file', rewrite M reader = some file' ∧ read file' = some (.ok reader)

def Fits (t : Trace M) : Prop :=
  (∀ r ∈ RangeMap.iter t.map, PathSurvives r.path) ∧ ∀ b ∈ t.blocks, BlockFits t.map b

theorem roundTrips_of_fits {t : Trace M} (h : t.Fits) : t.RoundTrips := by
  obtain ⟨es, blocks', hentries, hlen, hblocks, hfits⟩ := basicBlocks_of_inside t.inside
  obtain rfl := hfits.mpr h.2
  have hwrite := write_eq hentries hlen
  have hread := read_fileOf (inMemory_iter t.map) (length_iter_lt t.map) (hlen ▸ t.length_lt) h.1
  obtain ⟨m', hmap, hiter⟩ := moduleMap_of_entries t.map es
  refine ⟨_, ⟨moduleEntries t.map, es⟩, hwrite, hread, List.map_map, hblocks, _, ?_, hread⟩
  rw [rewrite, hmap, hblocks]
  exact (write_congr hiter t.blocks).trans hwrite

theorem fits_of_roundTrips {t : Trace M} (h : t.RoundTrips) : t.Fits := by
  obtain ⟨es, blocks', hentries, hlen, hblocks, hfits⟩ := basicBlocks_of_inside t.inside
  obtain ⟨file, reader, hwrite, hread, hkeys, hreader, -⟩ := h
  obtain rfl := Option.some.inj ((write_eq hentries hlen).symm.trans hwrite)
  obtain ⟨rest, hmodules⟩ := readModules_of_read (length_iter_lt t.map) hread
  have hpaths := survives_of_readModules (inMemory_iter t.map) hmodules hkeys
  refine ⟨hpaths, hfits.mp ?_⟩
  have hfull := read_fileOf (inMemory_iter t.map) (length_iter_lt t.map)
    (hlen ▸ t.length_lt) hpaths
  obtain rfl := Except.ok.inj (Option.some.inj (hread.symm.trans hfull))
  exact Option.some.inj (hblocks.symm.trans hreader)

/-- **What is written is read again** exactly when the paths survive and the
blocks fit. -/
theorem roundTrips_iff_fits (t : Trace M) : t.RoundTrips ↔ t.Fits :=
  ⟨fits_of_roundTrips, roundTrips_of_fits⟩

end Trace

/-! ## A map of ordered ranges -/

structure OrderedRanges where
  ranges : List ModuleRange
  bounds : ∀ r ∈ ranges, r.start < r.stop ∧ r.stop < 2 ^ 64
  sorted : ranges.Pairwise fun r r' => r.stop ≤ r'.start
  coalesced : ranges.Pairwise fun r r' =>
    r.stop = r'.start → ¬ (r.id = r'.id ∧ r.path = r'.path)

namespace OrderedRanges

def new : OrderedRanges := ⟨[], fun _ hr => (nomatch hr), .nil, .nil⟩

/-- The map of a file only has ranges inserted behind all others. -/
def insert (m : OrderedRanges) (r : ModuleRange) : Option OrderedRanges :=
  if h : (r.start < r.stop ∧ r.stop < 2 ^ 64) ∧ ∀ r' ∈ m.ranges, r'.stop ≤ r.start ∧
      (r'.stop = r.start → ¬ (r'.id = r.id ∧ r'.path = r.path)) then
    some {
      ranges := m.ranges ++ [r]
      bounds := fun r' hr' => (List.mem_append.mp hr').elim (m.bounds r')
        fun heq => List.mem_singleton.mp heq ▸ h.1
      sorted := List.pairwise_append.mpr ⟨m.sorted, List.pairwise_singleton _ _,
        fun r' hr' _ heq => List.mem_singleton.mp heq ▸ (h.2 r' hr').1⟩
      coalesced := List.pairwise_append.mpr ⟨m.coalesced, List.pairwise_singleton _ _,
        fun r' hr' _ heq => List.mem_singleton.mp heq ▸ (h.2 r' hr').2⟩ }
  else none

instance : RangeMap OrderedRanges where
  new := new
  insert := insert
  iter m := m.ranges
  getKeyValue m addr := m.ranges.find? fun r => r.contains addr
  iter_new := rfl
  start_lt m r hr := (m.bounds r hr).1
  stop_lt m r hr := (m.bounds r hr).2
  sorted m := m.sorted
  coalesced m := m.coalesced
  getKeyValue_eq _ _ := rfl
  iter_insert _ _ hstart hstop hbefore :=
    ⟨_, dif_pos ⟨⟨hstart, hstop⟩, hbefore⟩, rfl⟩

end OrderedRanges

/-! ## Traces that are not read again -/

/-- A path with the separator of the fields in it. -/
def commaPath : Trace OrderedRanges where
  map := ⟨[⟨0x1000, 0x2000, 0, "out/a, b".toList⟩], by decide, by decide, by decide⟩
  blocks := []
  inside := fun _ hb => (nomatch hb)
  length_lt := by decide

/-- A block of `2 ^ 16` bytes. -/
def wideBlock : Trace OrderedRanges where
  map := ⟨[⟨0x1000, 0x20000, 0, "fuzzer".toList⟩], by decide, by decide, by decide⟩
  blocks := [⟨0x1000, 0x11000⟩]
  inside := fun _ hb =>
    ⟨_, List.mem_singleton.mpr rfl, List.mem_singleton.mp hb ▸ ⟨by decide, by decide, by decide,
      by decide⟩⟩
  length_lt := by decide

theorem not_roundTrips_commaPath_wideBlock :
    ¬ commaPath.RoundTrips ∧ ¬ wideBlock.RoundTrips := by
  constructor
  · intro h
    have hsurvives := (Trace.fits_of_roundTrips h).1 _ (List.mem_singleton.mpr rfl)
    exact hsurvives.separator ⟨"out/a".toList, "b".toList, rfl⟩
  · intro h
    have hfits := (Trace.fits_of_roundTrips h).2 _ (List.mem_singleton.mpr rfl) _
      (List.mem_singleton.mpr rfl)
    have hwidth := (hfits (by decide) (by decide)).2.1
    exact absurd hwidth (by decide)

end DrCov

end Libaflmm
