import Libaflmm.MapsLines

/-!
# Maps that are read in parts

A read that ends in a line leaves a part of it in the buffer, which is looked
through, and looked through again from its start after the next read. Only the
digit zero at the start of the line does no harm: the base is still zero, and
the state is the first one.
-/

namespace Libaflmm

namespace Maps

/-- The entry of the line can no longer be decoded from the buffer. -/
inductive Spoiled (l : Line) (buffer : List UInt8) : MapState → MapEntry → Prop
  | digits {e : MapEntry} : 0 < e.base → Spoiled l buffer .base e
  | base {s : MapState} {e : MapEntry} : s ≠ .base → e.base ≠ l.base.value → Spoiled l buffer s e
  | again {s : MapState} {e : MapEntry} (rest : List UInt8) : s ≠ .base → s ≠ .path →
      buffer = l.base.bytes ++ 45 :: rest → Spoiled l buffer s e
  | path {e : MapEntry} : Spoiled l buffer .path e

theorem scan_base (l : Line) (e : MapEntry) (rest : List UInt8) :
    (∃ n, n = valueFrom 16 e.base l.base.digits ∧
      scan .base e (l.base.bytes ++ 45 :: rest) = scan .limit { e with base := n } rest) ∨
    scan .base e (l.base.bytes ++ 45 :: rest) = .panic := by
  by_cases hfits : valueFrom 16 e.base l.base.digits < 2 ^ 64
  · refine .inl ⟨_, rfl, ?_⟩
    exact scan_digits baseField _ hfits (45 :: rest)
  · exact .inr (scan_digits_panic baseField l.base.ne_nil (Nat.le_of_not_lt hfits) _)

/-- **A part of a line**: zeros, or the entry is spoiled. -/
theorem scan_part_cases {l : Line} {p q : List UInt8} (h : l.bytes = p ++ q) (hq : q ≠ []) :
    ((∀ c ∈ p, c = 48) ∧ scan .base .blank p = .more .base .blank) ∨
      ∃ s e, scan .base .blank p = .more s e ∧ Spoiled l p s e := by
  obtain ⟨s, e, hscan⟩ := scan_part h hq
  have hbytes := h
  rw [Line.bytes, Line.body, List.append_assoc, List.cons_append] at hbytes
  rcases split_at_byte hbytes with ⟨p', rfl, -⟩ | ⟨c, hbase, -⟩
  · -- the part goes past the base
    refine .inr ⟨s, e, hscan, ?_⟩
    have hlimit : scan .limit _ p' = .more s e :=
      (scan_number baseField l.base rfl p').symm.trans hscan
    have hs := (base_of_more (s := .limit) (by decide) hlimit).1
    by_cases hpath : s = .path
    · subst hpath
      exact .path
    · exact .again p' hs hpath rfl
  · obtain ⟨ds, ds', hds, rfl⟩ := bytesOf_eq_append hbase
    have hfits : valueFrom 16 0 ds < 2 ^ 64 := by
      have hle := le_valueFrom (valueFrom 16 0 ds) ds'
      have hvalue := l.base.fits
      rw [hds, valueFrom, List.foldl_append] at hvalue
      exact Nat.lt_of_le_of_lt hle hvalue
    have hdigits : scan .base .blank (bytesOf ds) =
        .more .base { MapEntry.blank with base := valueFrom 16 0 ds } := by
      have hall := scan_digits baseField _ (e := .blank) hfits []
      rwa [List.append_nil] at hall
    rw [hdigits]
    by_cases hzero : ∀ c ∈ bytesOf ds, c = 48
    · rw [bytesOf_zero hzero]
      exact .inl ⟨hzero, rfl⟩
    · exact .inr ⟨_, _, rfl, .digits (valueFrom_pos hzero)⟩

theorem accumulate_of_error {bound radix n m : Nat} {stop : MapStop} :
    accumulate bound radix n (.error stop) ≠ .ok m := by
  intro h
  rw [accumulate] at h
  split at h
  · cases h
  · cases h

/-- A field that is a number, behind the base. -/
def IsNumber (s : MapState) : Prop := s ≠ .base ∧ s ≠ .properties ∧ s ≠ .path

theorem feed_digitByte {s s' : MapState} (hs : IsNumber s) {e e' : MapEntry} {d : Fin 16}
    (h : feed s e (digitByte d) = .ok (s', e')) : s' = s := by
  have h58 : ∀ d : Fin 16, digitByte d ≠ 58 := by decide
  obtain ⟨hbase, hproperties, hpath⟩ := hs
  cases s with
  | base => exact absurd rfl hbase
  | properties => exact absurd rfl hproperties
  | path => exact absurd rfl hpath
  | major =>
      rcases feedNumber_ok h with ⟨hc, -, -⟩ | ⟨-, hs, -⟩
      · exact absurd hc (h58 d)
      · exact hs
  | limit | offset | minor | inode =>
      rcases feedNumber_ok h with ⟨hc, -, -⟩ | ⟨-, hs, -⟩
      · exact absurd hc (digitByte_ne d).2.1
      · exact hs

theorem feed_dash {s : MapState} (hs : IsNumber s) {e : MapEntry} {r : MapState × MapEntry} :
    feed s e 45 ≠ .ok r := by
  intro h
  have hhex : fromHex 45 = .error .none := rfl
  have hdec : fromDec 45 = .error .none := rfl
  obtain ⟨hbase, hproperties, hpath⟩ := hs
  cases s with
  | base => exact absurd rfl hbase
  | properties => exact absurd rfl hproperties
  | path => exact absurd rfl hpath
  | inode =>
      rcases feedNumber_ok h with ⟨hc, -, -⟩ | ⟨-, -, m, hm, -⟩
      · exact absurd hc (by decide)
      · rw [hdec] at hm
        exact accumulate_of_error hm
  | limit | offset | major | minor =>
      rcases feedNumber_ok h with ⟨hc, -, -⟩ | ⟨-, -, m, hm, -⟩
      · exact absurd hc (by decide)
      · rw [hhex] at hm
        exact accumulate_of_error hm

/-- A scan that ends without an entry, for good. -/
def Fails (r : Scanned) : Prop := r = .panic ∨ ∃ s, r = .none s

theorem scan_error {s : MapState} (hs : s ≠ .path) {e : MapEntry} {c : UInt8}
    (h : ∀ r, feed s e c ≠ .ok r) (bytes : List UInt8) : Fails (scan s e (c :: bytes)) := by
  rw [scan]
  cases hfeed : feed s e c with
  | ok r => exact absurd hfeed (h r)
  | error stop =>
      cases stop with
      | panic => exact .inl rfl
      | none => exact .inr ⟨s, rfl⟩
      | entry e' => exact absurd (feed_entry hfeed).1 hs

/-- The base and the end of it are no other number. -/
theorem scan_again {s : MapState} (hs : IsNumber s) {e : MapEntry} (ds : List (Fin 16))
    (rest : List UInt8) : Fails (scan s e (bytesOf ds ++ 45 :: rest)) := by
  induction ds generalizing e with
  | nil => exact scan_error hs.2.2 (fun r => feed_dash hs) rest
  | cons d ds ih =>
      rw [bytesOf, List.map_cons, List.cons_append]
      cases hfeed : feed s e (digitByte d) with
      | ok r =>
          obtain ⟨s', e'⟩ := r
          obtain rfl := feed_digitByte hs hfeed
          rw [scan, hfeed]
          exact ih
      | error stop =>
          refine scan_error hs.2.2 (fun r hr => ?_) _
          rw [hfeed] at hr
          cases hr

/-- The base, and all of its line, is no entry behind the first field. -/
theorem scan_base_again {s : MapState} (hbase : s ≠ .base) (hpath : s ≠ .path) (e : MapEntry)
    (l : Line) (rest : List UInt8) : Fails (scan s e (l.base.bytes ++ 45 :: rest)) := by
  by_cases hproperties : s = .properties
  · subst hproperties
    obtain ⟨d, ds, hds⟩ := List.exists_cons_of_ne_nil l.base.ne_nil
    rw [Number.bytes, hds, bytesOf, List.map_cons, List.cons_append]
    refine scan_error (s := .properties) (by decide) (fun r hr => ?_) _
    rw [feed, feedProperty_digitByte] at hr
    cases hr
  · exact scan_again ⟨hbase, hproperties, hpath⟩ l.base.digits rest

theorem newline_not_mem_bytes {radix bound : Nat} (hradix : radix ≤ 16) (n : Number radix bound) :
    10 ∉ n.bytes := by
  intro hmem
  obtain ⟨d, -, hd⟩ := List.mem_map.mp hmem
  exact (digitByte_ne ⟨d.val, Nat.lt_of_lt_of_le d.isLt hradix⟩).1 hd

theorem newline_not_mem_body (l : Line) : 10 ∉ l.body := by
  have hflags : 10 ∉ l.flags := by
    rw [Line.flags]
    cases l.read <;> cases l.write <;> cases l.exec <;> cases l.isPrivate <;> decide
  have hblanks : (10 : UInt8) ∉ List.replicate l.blanks 32 :=
    fun hmem => absurd (List.eq_of_mem_replicate hmem) (by decide)
  simp [Line.body, Line.tail, hflags, hblanks, l.path_ne, newline_not_mem_bytes]

/-- A line that is read as a path is longer than the path. -/
theorem scan_path_again {l : Line} (e : MapEntry) (rest : List UInt8) :
    ∃ e', scan .path e (l.body ++ 10 :: rest) = .entry e' rest ∧ e' ≠ l.entry := by
  have hhead : l.body.head? ≠ some 32 := by
    obtain ⟨d, ds, hds⟩ := List.exists_cons_of_ne_nil l.base.ne_nil
    rw [Line.body, Number.bytes, hds, bytesOf, List.map_cons, List.cons_append, List.head?_cons]
    exact fun heq => (digitByte_ne d).2.1 (Option.some.inj heq)
  refine ⟨_, scan_path (newline_not_mem_body l) (.inr hhead) _, fun heq => ?_⟩
  have hpath := congrArg (fun e => e.path.length) heq
  have hle := LossyText.length_decodeFrom_le 0 l.path
  simp only [List.length_append, charsOf, List.length_map, Line.entry, Line.withPath,
    LossyText.fromUtf8Lossy, Line.body, Line.tail, List.length_cons] at hpath
  omega

/-- **What is spoiled stays spoiled**: the loop over the buffer fails, or yields
another entry, or goes on. -/
theorem scan_spoiled {l : Line} {buffer bytes rest after : List UInt8} {s : MapState}
    {e : MapEntry} (h : Spoiled l buffer s e)
    (hline : l.bytes ++ after = buffer ++ bytes ++ rest) :
    Fails (scan s e (buffer ++ bytes)) ∨
      (∃ e' left, scan s e (buffer ++ bytes) = .entry e' left ∧ e' ≠ l.entry) ∨
      ∃ s' e', scan s e (buffer ++ bytes) = .more s' e' ∧ Spoiled l (buffer ++ bytes) s' e' := by
  have hwrong : ∀ {s : MapState} {e : MapEntry} (part : List UInt8), s ≠ .base →
      e.base ≠ l.base.value → Fails (scan s e part) ∨
        (∃ e' left, scan s e part = .entry e' left ∧ e' ≠ l.entry) ∨
        ∃ s' e', scan s e part = .more s' e' ∧ Spoiled l (buffer ++ bytes) s' e' := by
    intro s e part hs hbase
    cases hscan : scan s e part with
    | panic => exact .inl (.inl rfl)
    | none s' => exact .inl (.inr ⟨s', rfl⟩)
    | entry e' left =>
        refine .inr (.inl ⟨e', left, rfl, fun heq => hbase ?_⟩)
        rw [← base_of_entry hs hscan, heq]
        rfl
    | more s' e' =>
        obtain ⟨hs', hbase'⟩ := base_of_more hs hscan
        exact .inr (.inr ⟨s', e', rfl, .base hs' (hbase' ▸ hbase)⟩)
  have hbody : l.body ++ 10 :: after = buffer ++ bytes ++ rest := by
    rw [← hline, Line.bytes, List.append_assoc, List.singleton_append]
  cases h with
  | base hs hbase => exact hwrong _ hs hbase
  | again left hbase hpath hbuffer =>
      rw [hbuffer, List.append_assoc, List.cons_append]
      exact .inl (scan_base_again hbase hpath e l _)
  | path =>
      rcases split_at_byte hbody with ⟨left, hbuffer, -⟩ | ⟨c, hpart, -⟩
      · obtain ⟨e', hscan, hne⟩ := scan_path_again (l := l) e left
        exact .inr (.inl ⟨e', left, hbuffer ▸ hscan, hne⟩)
      · cases hscan : scan .path e (buffer ++ bytes) with
        | panic => exact .inl (.inl rfl)
        | none s' => exact .inl (.inr ⟨s', rfl⟩)
        | entry e' left =>
            refine absurd ?_ (newline_not_mem_body l)
            rw [hpart]
            exact List.mem_append_left c (newline_of_entry hscan)
        | more s' e' =>
            obtain rfl := path_of_more hscan
            exact .inr (.inr ⟨_, _, rfl, .path⟩)
  | digits hpos =>
      rw [Line.body, List.append_assoc, List.cons_append] at hbody
      rcases split_at_byte hbody with ⟨left, hbuffer, -⟩ | ⟨c, hpart, -⟩
      · rw [hbuffer]
        rcases scan_base l e left with ⟨n, hn, hscan⟩ | hscan
        · have hne : n ≠ l.base.value := by
            rw [hn, valueFrom_eq]
            have hpow : 0 < 16 ^ l.base.digits.length := Nat.pow_pos (Nat.succ_pos 15)
            have hmul := Nat.mul_pos hpos hpow
            rw [Number.value]
            omega
          rw [hscan, ← hbuffer]
          exact hwrong left (by decide) hne
        · exact .inl (.inl hscan)
      · obtain ⟨ds, ds', -, hbuffer⟩ := bytesOf_eq_append hpart
        rw [hbuffer]
        by_cases hfits : valueFrom 16 e.base ds < 2 ^ 64
        · have hscan := scan_digits baseField _ (e := e) hfits []
          rw [List.append_nil] at hscan
          exact .inr (.inr ⟨_, _, hscan, .digits (Nat.lt_of_lt_of_le hpos (le_valueFrom _ _))⟩)
        · by_cases hnil : ds = []
          · subst hnil
            exact .inr (.inr ⟨_, _, rfl, .digits hpos⟩)
          · have hscan := scan_digits_panic baseField hnil (e := e) (Nat.le_of_not_lt hfits) []
            rw [List.append_nil] at hscan
            exact .inl (.inl hscan)

end Maps

namespace MapIterator

open Maps

variable {ε : Type}

/-- The lines are decoded one by one: after every read the buffer holds the next
line as a whole, or zeros only. -/
inductive Served : List UInt8 → FileReader ε → List Line → Prop
  | done {source : FileReader ε} : source.rest = [] → Served [] source []
  | line {buffer bytes rest : List UInt8} {source source' : FileReader ε} {l : Line}
      {lines : List Line} : source.read (bufferSize - buffer.length) = (.ok bytes, source') →
      buffer ++ bytes = l.bytes ++ rest → Served rest source' lines →
      Served buffer source (l :: lines)
  | zeros {buffer bytes : List UInt8} {source source' : FileReader ε} {l : Line}
      {lines : List Line} : source.read (bufferSize - buffer.length) = (.ok bytes, source') →
      (∀ c ∈ buffer ++ bytes, c = 48) → buffer ++ bytes ≠ [] →
      Served (buffer ++ bytes) source' (l :: lines) → Served buffer source (l :: lines)

def textOf (lines : List Line) : List UInt8 := lines.flatMap Line.bytes

theorem textOf_cons (l : Line) (lines : List Line) :
    textOf (l :: lines) = l.bytes ++ textOf lines := rfl

/-- The loop over the reads does not yield an entry that is spoiled. -/
theorem nextLoop_spoiled {l : Line} {after buffer : List UInt8} {source : FileReader ε}
    {s : MapState} {e : MapEntry} (hsource : source.Succeeds) (h : Spoiled l buffer s e)
    (hline : l.bytes ++ after = buffer ++ source.rest) (fuel : Nat) (it : MapIterator ε) :
    nextLoop fuel ⟨source, buffer, s⟩ e ≠ some (.returned (some l.entry) it) := by
  induction fuel generalizing buffer source s e with
  | zero => nofun
  | succ fuel ih =>
      obtain ⟨bytes, source', hread, hrest, -, -, hsource'⟩ :=
        FileReader.read_of_succeeds hsource (bufferSize - buffer.length)
      rw [hrest, ← List.append_assoc] at hline
      rw [nextLoop, hread]
      dsimp only
      split
      · nofun
      · rcases scan_spoiled h hline with (hscan | ⟨s', hscan⟩) | ⟨e', left, hscan, hne⟩ |
          ⟨s', e', hscan, hspoiled⟩
        · rw [hscan]
          nofun
        · rw [hscan]
          nofun
        · rw [hscan]
          intro heq
          obtain ⟨hentry, -⟩ := Next.returned.inj (Option.some.inj heq)
          exact hne (Option.some.inj hentry)
        · rw [hscan]
          exact ih hsource' hspoiled hline

/-- One read of `next`, at the start of a line. -/
theorem nextLoop_of_read {buffer bytes : List UInt8} {source source' : FileReader ε}
    (hread : source.read (bufferSize - buffer.length) = (.ok bytes, source'))
    (hne : buffer ++ bytes ≠ []) (fuel : Nat) :
    nextLoop (fuel + 1) ⟨source, buffer, .base⟩ .blank =
      match scan .base .blank (buffer ++ bytes) with
      | .panic => some .panic
      | .none s => some (.returned none ⟨source', buffer ++ bytes, s⟩)
      | .entry e rest => some (.returned (some e) ⟨source', rest, .base⟩)
      | .more s e => nextLoop fuel ⟨source', buffer ++ bytes, s⟩ e := by
  rw [nextLoop, hread]
  exact if_neg hne

theorem scan_zeros {bytes : List UInt8} (h : ∀ c ∈ bytes, c = 48) :
    scan .base .blank bytes = .more .base .blank := by
  induction bytes with
  | nil => rfl
  | cons c bytes ih =>
      rw [List.forall_mem_cons] at h
      obtain ⟨rfl, hbytes⟩ := h
      exact ih hbytes

theorem ne_nil_of_line {l : Line} {a rest : List UInt8} (h : a = l.bytes ++ rest) : a ≠ [] := by
  rintro rfl
  exact absurd (List.append_eq_nil_iff.mp h.symm).1 (by simp [Line.bytes])

theorem succeeds_of_read {source source' : FileReader ε} {space : Nat} {bytes : List UInt8}
    (h : source.Succeeds) (hread : source.read space = (.ok bytes, source')) :
    source'.Succeeds := by
  obtain ⟨chunk, source'', hread', -, -, -, hsource'⟩ := FileReader.read_of_succeeds h space
  obtain ⟨-, rfl⟩ := Prod.mk.inj (hread.symm.trans hread')
  exact hsource'

/-- A line that is served is the next entry. -/
theorem next_of_served {buffer : List UInt8} {source : FileReader ε} {l : Line}
    {lines : List Line} (h : Served buffer source (l :: lines)) (hsource : source.Succeeds) :
    ∃ enough rest source', Served rest source' lines ∧ source'.Succeeds ∧
      ∀ fuel, enough ≤ fuel → nextLoop fuel ⟨source, buffer, .base⟩ .blank =
        some (.returned (some (l.withPath (charsOf l.path))) ⟨source', rest, .base⟩) := by
  generalize hall : l :: lines = all at h
  induction h with
  | done => cases hall
  | line hread hline hrest ih =>
      obtain ⟨rfl, rfl⟩ := List.cons.inj hall
      refine ⟨1, _, _, hrest, succeeds_of_read hsource hread, fun fuel hfuel => ?_⟩
      obtain ⟨fuel, rfl⟩ := Nat.exists_eq_add_of_le' hfuel
      rw [nextLoop_of_read hread (ne_nil_of_line hline), hline, scan_line]
  | zeros hread hzero hne hrest ih =>
      obtain ⟨enough, rest, source', hserved, hsource', hnext⟩ :=
        ih (succeeds_of_read hsource hread) hall
      refine ⟨enough + 1, rest, source', hserved, hsource', fun fuel hfuel => ?_⟩
      obtain ⟨fuel, rfl⟩ := Nat.exists_eq_add_of_le' (Nat.le_trans (Nat.le_add_left 1 _) hfuel)
      rw [nextLoop_of_read hread hne, scan_zeros hzero]
      exact hnext fuel (Nat.le_of_succ_le_succ hfuel)

/-- An entry of a line is one that is served, and its path is as it is decoded. -/
theorem served_of_next {l : Line} {lines : List Line} {buffer : List UInt8}
    {source : FileReader ε} (hsource : source.Succeeds)
    (htext : textOf (l :: lines) = buffer ++ source.rest) {fuel : Nat} {it : MapIterator ε}
    (h : nextLoop fuel ⟨source, buffer, .base⟩ .blank = some (.returned (some l.entry) it)) :
    (∀ c ∈ l.path, c < 0x80) ∧ ∃ rest source', it = ⟨source', rest, .base⟩ ∧
      source'.Succeeds ∧ textOf lines = rest ++ source'.rest ∧
      (Served rest source' lines → Served buffer source (l :: lines)) := by
  induction fuel generalizing buffer source with
  | zero => cases h
  | succ fuel ih =>
      obtain ⟨bytes, source', hread, hrest, -, -, hsource'⟩ :=
        FileReader.read_of_succeeds hsource (bufferSize - buffer.length)
      rw [hrest, ← List.append_assoc] at htext
      by_cases hne : buffer ++ bytes = []
      · rw [nextLoop, hread] at h
        simp only [hne, if_true] at h
        cases h
      rw [nextLoop_of_read hread hne] at h
      have hnewline := htext
      rw [textOf_cons, Line.bytes, List.append_assoc, List.singleton_append] at hnewline
      rcases split_at_byte hnewline with ⟨left, hbuffer, hleft⟩ | ⟨c, hbody, -⟩
      · -- the line is in the buffer as a whole
        have hline : buffer ++ bytes = l.bytes ++ left := by
          rw [hbuffer, Line.bytes, List.append_assoc, List.singleton_append]
        rw [hline, scan_line] at h
        obtain ⟨hentry, rfl⟩ := Next.returned.inj (Option.some.inj h)
        exact ⟨withPath_eq_entry.mp (Option.some.inj hentry), left, source', rfl, hsource', hleft,
          .line hread hline⟩
      · have hpart : l.bytes = (buffer ++ bytes) ++ (c ++ [10]) := by
          rw [Line.bytes, hbody, List.append_assoc]
        rcases scan_part_cases hpart (by simp) with ⟨hzero, hscan⟩ | ⟨s, e, hscan, hspoiled⟩
        · rw [hscan] at h
          obtain ⟨hpath, rest, source'', hit, hsource'', hlines, hserved⟩ := ih hsource' htext h
          exact ⟨hpath, rest, source'', hit, hsource'', hlines,
            fun hlast => .zeros hread hzero hne (hserved hlast)⟩
        · rw [hscan] at h
          exact absurd h (nextLoop_spoiled hsource' hspoiled htext fuel it)

theorem next_of_end {source : FileReader ε} (hsource : source.Succeeds) (hend : source.rest = [])
    (fuel : Nat) :
    ∃ source', next (fuel + 1) ⟨source, [], .base⟩ =
      some (.returned none ⟨source', [], .base⟩) := by
  obtain ⟨bytes, source', hread, -, -, hnil, -⟩ :=
    FileReader.read_of_succeeds hsource (bufferSize - ([] : List UInt8).length)
  obtain rfl := hnil.mpr (.inl hend)
  refine ⟨source', ?_⟩
  rw [next, nextLoop, hread]
  rfl

theorem collect_of_served {lines : List Line} {buffer : List UInt8} {source : FileReader ε}
    (hsource : source.Succeeds) (h : Served buffer source lines)
    (hpath : ∀ l ∈ lines, ∀ c ∈ l.path, c < 0x80) :
    ∃ enough, ∀ fuel, enough ≤ fuel →
      collect fuel ⟨source, buffer, .base⟩ = some (lines.map Line.entry) := by
  induction lines generalizing buffer source with
  | nil =>
      cases h with
      | done hend =>
          refine ⟨1, fun fuel hfuel => ?_⟩
          obtain ⟨fuel, rfl⟩ := Nat.exists_eq_add_of_le' hfuel
          obtain ⟨source', hnext⟩ := next_of_end hsource hend fuel
          rw [collect, hnext]
          rfl
  | cons l lines ih =>
      rw [List.forall_mem_cons] at hpath
      obtain ⟨enough, rest, source', hserved, hsource', hnext⟩ := next_of_served h hsource
      obtain ⟨enough', hcollect⟩ := ih hsource' hserved hpath.2
      refine ⟨enough + enough' + 1, fun fuel hfuel => ?_⟩
      obtain ⟨fuel, rfl⟩ := Nat.exists_eq_add_of_le' (Nat.le_trans (Nat.le_add_left 1 _) hfuel)
      rw [collect, next, hnext _ (by omega), withPath_eq_entry.mpr hpath.1]
      dsimp only
      rw [hcollect fuel (by omega)]
      rfl

theorem served_of_collect {lines : List Line} {buffer : List UInt8} {source : FileReader ε}
    (hsource : source.Succeeds) (htext : textOf lines = buffer ++ source.rest) {fuel : Nat}
    (h : collect fuel ⟨source, buffer, .base⟩ = some (lines.map Line.entry)) :
    Served buffer source lines ∧ ∀ l ∈ lines, ∀ c ∈ l.path, c < 0x80 := by
  induction lines generalizing buffer source fuel with
  | nil =>
      obtain ⟨rfl, hend⟩ := List.append_eq_nil_iff.mp htext.symm
      exact ⟨.done hend, fun l hl => (nomatch hl)⟩
  | cons l lines ih =>
      cases fuel with
      | zero => cases h
      | succ fuel =>
          rw [collect] at h
          split at h
          · next e it hnext =>
              obtain ⟨entries, hcollect, heq⟩ := Option.map_eq_some_iff.mp h
              obtain ⟨rfl, rfl⟩ := List.cons.inj heq
              obtain ⟨hpath, rest, source', rfl, hsource', hlines, hserved⟩ :=
                served_of_next hsource htext hnext
              obtain ⟨hlast, hpaths⟩ := ih hsource' hlines hcollect
              exact ⟨hserved hlast, List.forall_mem_cons.mpr ⟨hpath, hpaths⟩⟩
          · cases h
          · cases h

/-- **The entries are those of the lines** just when the paths have bytes below
128 only and every read leaves a whole line, or zeros, in the buffer. -/
theorem collects_iff_served (lines : List Line) (sizes : Nat → Nat) :
    (∃ enough, ∀ fuel, enough ≤ fuel →
      collect fuel (new (FileReader.ofSizes (textOf lines) sizes : FileReader ε)) =
        some (lines.map Line.entry)) ↔
    Served [] (FileReader.ofSizes (textOf lines) sizes : FileReader ε) lines ∧
      ∀ l ∈ lines, ∀ c ∈ l.path, c < 0x80 := by
  have hsource : (FileReader.ofSizes (textOf lines) sizes : FileReader ε).Succeeds :=
    FileReader.succeeds_ofSizes _ _
  constructor
  · rintro ⟨enough, hall⟩
    exact served_of_collect hsource rfl (hall enough (Nat.le_refl enough))
  · rintro ⟨hserved, hpath⟩
    exact collect_of_served hsource hserved hpath

/-- The line `1-2 r--p 0 0:0 0` -/
def shortLine : Line where
  base := ⟨[1], nofun, by decide⟩
  limit := ⟨[2], nofun, by decide⟩
  read := true
  write := false
  exec := false
  isPrivate := true
  offset := ⟨[0], nofun, by decide⟩
  major := ⟨[0], nofun, by decide⟩
  minor := ⟨[0], nofun, by decide⟩
  inode := ⟨[0], nofun, by decide⟩
  blanks := 0
  path := []
  path_head := nofun
  path_ne := List.not_mem_nil

/-- A file that is read byte by byte. -/
theorem not_collects_bytewise :
    ¬ ∃ enough, ∀ fuel, enough ≤ fuel →
      collect fuel (new (FileReader.ofSizes (textOf [shortLine]) (fun _ => 0) :
        FileReader Empty)) = some ([shortLine].map Line.entry) := by
  rintro ⟨enough, hall⟩
  have hserved := (served_of_collect (FileReader.succeeds_ofSizes _ _) rfl
    (hall enough (Nat.le_refl enough))).1
  have hread : (FileReader.ofSizes (textOf [shortLine]) (fun _ => 0) : FileReader Empty).read
      (bufferSize - ([] : List UInt8).length) = (.ok [49], _) := rfl
  cases hserved with
  | line hread' hline hrest =>
      obtain rfl := Except.ok.inj (Prod.mk.inj (hread.symm.trans hread')).1
      have hlength := congrArg List.length hline
      rw [List.length_append, List.length_append] at hlength
      have htext : shortLine.bytes.length = 18 := rfl
      rw [htext] at hlength
      simp only [List.length_nil, List.length_singleton] at hlength
      omega
  | zeros hread' hzero hne hrest =>
      obtain rfl := Except.ok.inj (Prod.mk.inj (hread.symm.trans hread')).1
      exact absurd (hzero 49 List.mem_cons_self) (by decide)

end MapIterator

end Libaflmm
