import Libaflmm.MapsReader

/-!
# The lines of the process maps

A line that is in the buffer as a whole is decoded to its fields, with one
character for every byte of the path. A line that is looked through before it
is there as a whole spoils the entry: what was decoded of it stays, and is
decoded again from the start of the line.
-/

namespace Libaflmm

namespace Maps

/-! ## Numbers -/

def digitByte (d : Nat) : UInt8 := if d < 10 then UInt8.ofNat (48 + d) else UInt8.ofNat (87 + d)

def valueFrom (radix n : Nat) (ds : List (Fin radix)) : Nat :=
  ds.foldl (fun n (d : Fin radix) => n * radix + d) n

def bytesOf {radix : Nat} (ds : List (Fin radix)) : List UInt8 :=
  ds.map fun d : Fin radix => digitByte d

/-- The digits of a number below the bound. -/
structure Number (radix bound : Nat) where
  digits : List (Fin radix)
  ne_nil : digits ≠ []
  fits : valueFrom radix 0 digits < bound

namespace Number

variable {radix bound : Nat}

def value (n : Number radix bound) : Nat := valueFrom radix 0 n.digits

def bytes (n : Number radix bound) : List UInt8 := bytesOf n.digits

end Number

theorem le_valueFrom {radix : Nat} (n : Nat) (ds : List (Fin radix)) :
    n ≤ valueFrom radix n ds := by
  induction ds generalizing n with
  | nil => exact Nat.le_refl n
  | cons d ds ih =>
      have hmul : n ≤ n * radix := Nat.le_mul_of_pos_right n d.pos
      exact Nat.le_trans (Nat.le_trans hmul (Nat.le_add_right _ _)) (ih (n * radix + d))

theorem valueFrom_eq {radix : Nat} (n : Nat) (ds : List (Fin radix)) :
    valueFrom radix n ds = n * radix ^ ds.length + valueFrom radix 0 ds := by
  induction ds generalizing n with
  | nil => simp [valueFrom]
  | cons d ds ih =>
      have hcons : ∀ m, valueFrom radix m (d :: ds) = valueFrom radix (m * radix + d) ds :=
        fun _ => rfl
      rw [hcons, hcons, ih (n * radix + d), ih (0 * radix + d), Nat.zero_mul, Nat.zero_add,
        Nat.add_mul, List.length_cons, Nat.pow_succ', Nat.mul_assoc, Nat.add_assoc]

theorem fromHex_digitByte : ∀ d : Fin 16, fromHex (digitByte d) = .ok d.val := by decide

theorem fromDec_digitByte : ∀ d : Fin 10, fromDec (digitByte d) = .ok d.val := by decide

/-- A number of the line: the states, the end and the place of it. -/
structure Field where
  here : MapState
  next : MapState
  separator : UInt8
  bound : Nat
  radix : Nat
  digit : UInt8 → Except MapStop Nat
  get : MapEntry → Nat
  set : MapEntry → Nat → MapEntry
  feed_eq : ∀ e c, feed here e c =
    feedNumber separator here next e (set e) (accumulate bound radix (get e) (digit c)) c
  digit_eq : ∀ d : Fin radix, digit (digitByte d) = .ok d.val
  separator_ne : ∀ d : Fin radix, digitByte d ≠ separator
  get_set : ∀ e n, get (set e n) = n
  set_get : ∀ e, set e (get e) = e
  set_set : ∀ e n m, set (set e n) m = set e m

def baseField : Field where
  here := .base
  next := .limit
  separator := 45
  bound := 2 ^ 64
  radix := 16
  digit := fromHex
  get := MapEntry.base
  set := fun e n => { e with base := n }
  feed_eq := fun _ _ => rfl
  digit_eq := fromHex_digitByte
  separator_ne := by decide
  get_set := fun _ _ => rfl
  set_get := fun _ => rfl
  set_set := fun _ _ _ => rfl

def limitField : Field :=
  { baseField with
    here := .limit
    next := .properties
    separator := 32
    get := MapEntry.limit
    set := fun e n => { e with limit := n }
    feed_eq := fun _ _ => rfl
    separator_ne := by decide
    get_set := fun _ _ => rfl
    set_get := fun _ => rfl
    set_set := fun _ _ _ => rfl }

def offsetField : Field :=
  { limitField with
    here := .offset
    next := .major
    get := MapEntry.offset
    set := fun e n => { e with offset := n }
    feed_eq := fun _ _ => rfl
    get_set := fun _ _ => rfl
    set_get := fun _ => rfl
    set_set := fun _ _ _ => rfl }

def majorField : Field :=
  { baseField with
    here := .major
    next := .minor
    separator := 58
    bound := 2 ^ 32
    get := MapEntry.major
    set := fun e n => { e with major := n }
    feed_eq := fun _ _ => rfl
    separator_ne := by decide
    get_set := fun _ _ => rfl
    set_get := fun _ => rfl
    set_set := fun _ _ _ => rfl }

def minorField : Field :=
  { limitField with
    here := .minor
    next := .inode
    bound := 2 ^ 32
    get := MapEntry.minor
    set := fun e n => { e with minor := n }
    feed_eq := fun _ _ => rfl
    get_set := fun _ _ => rfl
    set_get := fun _ => rfl
    set_set := fun _ _ _ => rfl }

def inodeField : Field where
  here := .inode
  next := .path
  separator := 32
  bound := 2 ^ 64
  radix := 10
  digit := fromDec
  get := MapEntry.inode
  set := fun e n => { e with inode := n }
  feed_eq := fun _ _ => rfl
  digit_eq := fromDec_digitByte
  separator_ne := by decide
  get_set := fun _ _ => rfl
  set_get := fun _ => rfl
  set_set := fun _ _ _ => rfl

theorem accumulate_ok {bound radix n d : Nat} (h : n * radix + d < bound) :
    accumulate bound radix n (.ok d) = .ok (n * radix + d) := by
  rw [accumulate, if_pos (Nat.lt_of_le_of_lt (Nat.le_add_right _ _) h)]
  exact if_pos h

theorem scan_digits (f : Field) (ds : List (Fin f.radix)) {e : MapEntry}
    (h : valueFrom f.radix (f.get e) ds < f.bound) (rest : List UInt8) :
    scan f.here e (bytesOf ds ++ rest) =
      scan f.here (f.set e (valueFrom f.radix (f.get e) ds)) rest := by
  induction ds generalizing e with
  | nil => rw [valueFrom, List.foldl_nil, f.set_get, bytesOf, List.map_nil, List.nil_append]
  | cons d ds ih =>
      have hnext : f.get e * f.radix + d < f.bound := Nat.lt_of_le_of_lt (le_valueFrom _ ds) h
      have hfeed : feed f.here e (digitByte d) = .ok (f.here, f.set e (f.get e * f.radix + d)) := by
        rw [f.feed_eq, feedNumber, if_neg (f.separator_ne d), f.digit_eq, accumulate_ok hnext]
        rfl
      have hrest := ih (e := f.set e (f.get e * f.radix + d)) (by rwa [f.get_set])
      rw [f.get_set, f.set_set] at hrest
      rw [bytesOf, List.map_cons, List.cons_append, scan, hfeed]
      exact hrest

theorem scan_number (f : Field) (n : Number f.radix f.bound) {e : MapEntry} (h : f.get e = 0)
    (rest : List UInt8) :
    scan f.here e (n.bytes ++ f.separator :: rest) = scan f.next (f.set e n.value) rest := by
  have hfeed : ∀ e, feed f.here e f.separator = .ok (f.next, e) := by
    intro e
    rw [f.feed_eq, feedNumber, if_pos rfl]
  have hdigits := scan_digits f n.digits (e := e) (by rw [h]; exact n.fits) (f.separator :: rest)
  rw [h] at hdigits
  rw [Number.bytes, hdigits, scan, hfeed]
  rfl

/-! ## Lines -/

/-- A line; before the path there are blanks, and it has no newline. -/
structure Line where
  base : Number 16 (2 ^ 64)
  limit : Number 16 (2 ^ 64)
  read : Bool
  write : Bool
  exec : Bool
  isPrivate : Bool
  offset : Number 16 (2 ^ 64)
  major : Number 16 (2 ^ 32)
  minor : Number 16 (2 ^ 32)
  inode : Number 10 (2 ^ 64)
  blanks : Nat
  path : List UInt8
  path_head : path.head? ≠ some 32
  path_ne : 10 ∉ path

namespace Line

/-- The part with the flags, up to the end of it. -/
def flags (l : Line) : List UInt8 :=
  [if l.read then 114 else 45, if l.write then 119 else 45, if l.exec then 120 else 45,
    if l.isPrivate then 112 else 115]

/-- The line behind the base and its end, without the newline. -/
def tail (l : Line) : List UInt8 :=
  l.limit.bytes ++ 32 :: (l.flags ++ 32 :: (l.offset.bytes ++ 32 :: (l.major.bytes ++ 58 ::
    (l.minor.bytes ++ 32 :: (l.inode.bytes ++ 32 :: (List.replicate l.blanks 32 ++ l.path))))))

/-- The line without the newline. -/
def body (l : Line) : List UInt8 := l.base.bytes ++ 45 :: l.tail

def bytes (l : Line) : List UInt8 := l.body ++ [10]

def withPath (l : Line) (path : List Char) : MapEntry :=
  ⟨l.base.value, l.limit.value, l.read, l.write, l.exec, l.isPrivate, l.offset.value,
    l.major.value, l.minor.value, l.inode.value, path⟩

/-- The fields of the line. -/
def entry (l : Line) : MapEntry := l.withPath (LossyText.fromUtf8Lossy l.path)

end Line

/-- One character for every byte. -/
def charsOf (bytes : List UInt8) : List Char := bytes.map fun c => Char.ofNat c.toNat

theorem scan_flags (l : Line) {e : MapEntry} (hread : e.read = false) (hwrite : e.write = false)
    (hexec : e.exec = false) (hprivate : e.isPrivate = false) (rest : List UInt8) :
    scan .properties e (l.flags ++ 32 :: rest) = scan .offset
      { e with read := l.read, write := l.write, exec := l.exec, isPrivate := l.isPrivate }
      rest := by
  obtain ⟨base, limit, read, write, exec, isPrivate, offset, major, minor, inode, path⟩ := e
  subst hread hwrite hexec hprivate
  rw [Line.flags]
  cases l.read <;> cases l.write <;> cases l.exec <;> cases l.isPrivate <;> rfl

theorem scan_blanks {e : MapEntry} (h : e.path = []) (blanks : Nat) (rest : List UInt8) :
    scan .path e (List.replicate blanks 32 ++ rest) = scan .path e rest := by
  induction blanks with
  | zero => rfl
  | succ blanks ih =>
      have hfeed : feed .path e 32 = .ok (.path, e) := by
        rw [feed, feedPath, if_pos rfl, if_neg (not_not.mpr h)]
      rw [List.replicate_succ, List.cons_append, scan, hfeed]
      exact ih

/-- Behind the first character of the path blanks are characters of it too. -/
theorem scan_path {bytes : List UInt8} (hne : 10 ∉ bytes) {e : MapEntry}
    (hhead : e.path ≠ [] ∨ bytes.head? ≠ some 32) (rest : List UInt8) :
    scan .path e (bytes ++ rest) =
      scan .path { e with path := e.path ++ charsOf bytes } rest := by
  induction bytes generalizing e with
  | nil => simp [charsOf]
  | cons c bytes ih =>
      have hfeed : feed .path e c =
          .ok (.path, { e with path := e.path ++ [Char.ofNat c.toNat] }) := by
        rw [feed, feedPath]
        split
        · next hblank =>
            subst hblank
            have hpath : e.path ≠ [] := hhead.elim id fun hhead => absurd rfl hhead
            rw [if_pos hpath]
            rfl
        · rw [if_neg fun hc : c = 10 => hne (hc ▸ List.mem_cons_self)]
      have hrest := ih (fun hmem => hne (List.mem_cons_of_mem c hmem))
        (e := { e with path := e.path ++ [Char.ofNat c.toNat] }) (.inl (by simp))
      rw [List.cons_append, scan, hfeed]
      rw [List.append_assoc] at hrest
      exact hrest

/-- The line behind the base. -/
theorem scan_tail (l : Line) (base : Nat) (rest : List UInt8) :
    scan .limit { MapEntry.blank with base := base } (l.tail ++ 10 :: rest) =
      .entry { l.withPath (charsOf l.path) with base := base } rest := by
  simp only [Line.tail, List.append_assoc, List.cons_append]
  refine (scan_number limitField l.limit rfl _).trans ?_
  refine (scan_flags l rfl rfl rfl rfl _).trans ?_
  refine (scan_number offsetField l.offset rfl _).trans ?_
  refine (scan_number majorField l.major rfl _).trans ?_
  refine (scan_number minorField l.minor rfl _).trans ?_
  refine (scan_number inodeField l.inode rfl _).trans ?_
  refine (scan_blanks rfl _ _).trans ?_
  exact scan_path l.path_ne (.inr l.path_head) _

/-- **A line that is in the buffer as a whole.** -/
theorem scan_line (l : Line) (rest : List UInt8) :
    scan .base .blank (l.bytes ++ rest) = .entry (l.withPath (charsOf l.path)) rest := by
  rw [Line.bytes, Line.body, List.append_assoc, List.append_assoc, List.cons_append]
  exact (scan_number baseField l.base rfl _).trans (scan_tail l l.base.value rest)

theorem withPath_eq_entry {l : Line} :
    l.withPath (charsOf l.path) = l.entry ↔ ∀ c ∈ l.path, c < 0x80 := by
  rw [← LossyText.fromUtf8Lossy_eq_map_iff, Line.entry, Line.withPath, Line.withPath, charsOf]
  simp only [MapEntry.mk.injEq, true_and]
  exact eq_comm

/-! ## Parts of a line -/

theorem scan_append (s : MapState) (e : MapEntry) (a b : List UInt8) :
    scan s e (a ++ b) = match scan s e a with
      | .more s' e' => scan s' e' b
      | .entry e' rest => .entry e' (rest ++ b)
      | .none s' => .none s'
      | .panic => .panic := by
  induction a generalizing s e with
  | nil => rfl
  | cons c a ih =>
      rw [List.cons_append, scan, scan]
      cases feed s e c with
      | ok next => exact ih next.1 next.2
      | error stop => cases stop <;> rfl

/-- A part of a line is no entry. -/
theorem scan_part {l : Line} {p q : List UInt8} (h : l.bytes = p ++ q) (hq : q ≠ []) :
    ∃ s e, scan .base .blank p = .more s e := by
  have hline := scan_line l []
  rw [List.append_nil, h, scan_append] at hline
  cases hscan : scan .base .blank p with
  | more s e => exact ⟨s, e, rfl⟩
  | entry e rest =>
      rw [hscan] at hline
      obtain ⟨-, hrest⟩ := Scanned.entry.inj hline
      exact absurd (List.append_eq_nil_iff.mp hrest).2 hq
  | none s =>
      rw [hscan] at hline
      cases hline
  | panic =>
      rw [hscan] at hline
      cases hline

theorem feedNumber_ok {separator c : UInt8} {here next s : MapState} {e e' : MapEntry}
    {set : Nat → MapEntry} {n : Except MapStop Nat}
    (h : feedNumber separator here next e set n c = .ok (s, e')) :
    (c = separator ∧ s = next ∧ e' = e) ∨
      (c ≠ separator ∧ s = here ∧ ∃ m, n = .ok m ∧ e' = set m) := by
  rw [feedNumber] at h
  split at h
  · next hc =>
      obtain ⟨rfl, rfl⟩ := Prod.mk.inj (Except.ok.inj h)
      exact .inl ⟨hc, rfl, rfl⟩
  · next hc =>
      cases n with
      | error stop => cases h
      | ok m =>
          obtain ⟨rfl, rfl⟩ := Prod.mk.inj (Except.ok.inj h)
          exact .inr ⟨hc, rfl, m, rfl, rfl⟩

theorem feedNumber_error {separator c : UInt8} {here next : MapState} {e : MapEntry}
    {set : Nat → MapEntry} {n : Except MapStop Nat} {stop : MapStop}
    (h : feedNumber separator here next e set n c = .error stop) : n = .error stop := by
  rw [feedNumber] at h
  split at h
  · cases h
  · cases n with
    | error stop' =>
        obtain rfl := Except.error.inj h
        rfl
    | ok m => cases h

theorem feedProperty_ok {s : MapState} {e e' : MapEntry} {c : UInt8}
    (h : feedProperty e c = .ok (s, e')) : s ≠ .base ∧ e'.base = e.base := by
  rw [feedProperty] at h
  repeat' split at h
  all_goals
    first
    | (obtain ⟨rfl, rfl⟩ := Prod.mk.inj (Except.ok.inj h)
       exact ⟨nofun, rfl⟩)
    | cases h

theorem feedPath_ok {s : MapState} {e e' : MapEntry} {c : UInt8}
    (h : feedPath e c = .ok (s, e')) : s = .path ∧ e'.base = e.base := by
  rw [feedPath] at h
  split at h
  · obtain ⟨rfl, rfl⟩ := Prod.mk.inj (Except.ok.inj h)
    split
    · exact ⟨rfl, rfl⟩
    · exact ⟨rfl, rfl⟩
  · split at h
    · cases h
    · obtain ⟨rfl, rfl⟩ := Prod.mk.inj (Except.ok.inj h)
      exact ⟨rfl, rfl⟩

/-- Behind the base a byte keeps it. -/
theorem feed_ne_base {s s' : MapState} {e e' : MapEntry} {c : UInt8} (hs : s ≠ .base)
    (h : feed s e c = .ok (s', e')) : s' ≠ .base ∧ e'.base = e.base := by
  cases s with
  | base => exact absurd rfl hs
  | properties => exact feedProperty_ok h
  | path =>
      obtain ⟨rfl, hbase⟩ := feedPath_ok h
      exact ⟨nofun, hbase⟩
  | limit | offset | major | minor | inode =>
      rcases feedNumber_ok h with ⟨-, rfl, rfl⟩ | ⟨-, rfl, m, -, rfl⟩
      · exact ⟨nofun, rfl⟩
      · exact ⟨nofun, rfl⟩

theorem fromHex_error {c : UInt8} {e : MapEntry} : fromHex c ≠ .error (.entry e) := by
  rw [fromHex]
  repeat' split
  all_goals nofun

theorem fromDec_error {c : UInt8} {e : MapEntry} : fromDec c ≠ .error (.entry e) := by
  rw [fromDec]
  split
  all_goals nofun

theorem accumulate_error {bound radix n : Nat} {digit : Except MapStop Nat} {e : MapEntry}
    (h : digit ≠ .error (.entry e)) : accumulate bound radix n digit ≠ .error (.entry e) := by
  rw [accumulate]
  split
  · cases digit with
    | error stop => exact h
    | ok d =>
        show (if n * radix + d < bound then _ else _) ≠ _
        split
        · nofun
        · nofun
  · nofun

/-- Only the newline behind the path ends a line. -/
theorem feed_entry {s : MapState} {e e' : MapEntry} {c : UInt8}
    (h : feed s e c = .error (.entry e')) : s = .path ∧ c = 10 ∧ e' = e := by
  cases s with
  | path =>
      rw [feed, feedPath] at h
      split at h
      · cases h
      · split at h
        · next hc =>
            obtain rfl := MapStop.entry.inj (Except.error.inj h)
            exact ⟨rfl, hc, rfl⟩
        · cases h
  | properties =>
      rw [feed, feedProperty] at h
      repeat' split at h
      all_goals cases h
  | inode => exact absurd (feedNumber_error h) (accumulate_error fromDec_error)
  | base | limit | offset | major | minor =>
      exact absurd (feedNumber_error h) (accumulate_error fromHex_error)

/-- The base is decoded once, and then kept. -/
theorem base_of_more {s s' : MapState} {e e' : MapEntry} {bytes : List UInt8} (hs : s ≠ .base)
    (h : scan s e bytes = .more s' e') : s' ≠ .base ∧ e'.base = e.base := by
  induction bytes generalizing s e with
  | nil =>
      obtain ⟨rfl, rfl⟩ := Scanned.more.inj h
      exact ⟨hs, rfl⟩
  | cons c bytes ih =>
      rw [scan] at h
      cases hfeed : feed s e c with
      | ok next =>
          rw [hfeed] at h
          obtain ⟨hnext, hbase⟩ := feed_ne_base hs hfeed
          obtain ⟨hs', hbase'⟩ := ih hnext h
          exact ⟨hs', hbase'.trans hbase⟩
      | error stop =>
          rw [hfeed] at h
          cases stop <;> cases h

theorem base_of_entry {s : MapState} {e e' : MapEntry} {bytes rest : List UInt8}
    (hs : s ≠ .base) (h : scan s e bytes = .entry e' rest) : e'.base = e.base := by
  induction bytes generalizing s e with
  | nil => cases h
  | cons c bytes ih =>
      rw [scan] at h
      cases hfeed : feed s e c with
      | ok next =>
          rw [hfeed] at h
          obtain ⟨hnext, hbase⟩ := feed_ne_base hs hfeed
          exact (ih hnext h).trans hbase
      | error stop =>
          rw [hfeed] at h
          cases stop with
          | panic => cases h
          | none => cases h
          | entry e'' =>
              obtain ⟨rfl, -⟩ := Scanned.entry.inj h
              obtain ⟨-, -, rfl⟩ := feed_entry hfeed
              rfl

theorem path_of_more {s : MapState} {e e' : MapEntry} {bytes : List UInt8}
    (h : scan .path e bytes = .more s e') : s = .path := by
  induction bytes generalizing e with
  | nil => exact (Scanned.more.inj h).1.symm
  | cons c bytes ih =>
      rw [scan] at h
      cases hfeed : feed .path e c with
      | ok next =>
          obtain ⟨s', e''⟩ := next
          rw [hfeed] at h
          obtain ⟨rfl, -⟩ := feedPath_ok hfeed
          exact ih h
      | error stop =>
          rw [hfeed] at h
          cases stop <;> cases h

theorem newline_of_entry {s : MapState} {e e' : MapEntry} {bytes rest : List UInt8}
    (h : scan s e bytes = .entry e' rest) : 10 ∈ bytes := by
  induction bytes generalizing s e with
  | nil => cases h
  | cons c bytes ih =>
      rw [scan] at h
      cases hfeed : feed s e c with
      | ok next =>
          rw [hfeed] at h
          exact List.mem_cons_of_mem c (ih h)
      | error stop =>
          rw [hfeed] at h
          cases stop with
          | panic => cases h
          | none => cases h
          | entry e'' =>
              obtain ⟨-, rfl, -⟩ := feed_entry hfeed
              exact List.mem_cons_self

/-! ## Digits that were decoded before -/

theorem digitByte_ne : ∀ d : Fin 16, digitByte d ≠ 10 ∧ digitByte d ≠ 32 ∧ digitByte d ≠ 45 := by
  decide

theorem digitByte_eq_zero : ∀ d : Fin 16, digitByte d = 48 ↔ d = 0 := by decide

theorem feedProperty_digitByte (e : MapEntry) :
    ∀ d : Fin 16, feedProperty e (digitByte d) = .error .none := by
  have hne : ∀ d : Fin 16, digitByte d ≠ 32 ∧ digitByte d ≠ 45 ∧ digitByte d ≠ 114 ∧
      digitByte d ≠ 119 ∧ digitByte d ≠ 120 ∧ digitByte d ≠ 112 ∧ digitByte d ≠ 115 := by
    decide
  intro d
  obtain ⟨h32, h45, h114, h119, h120, h112, h115⟩ := hne d
  rw [feedProperty, if_neg h32, if_neg h45, if_neg h114, if_neg h119, if_neg h120, if_neg h112,
    if_neg h115]

/-- The sum of the digits overflows. -/
theorem scan_digits_panic (f : Field) {ds : List (Fin f.radix)} (hds : ds ≠ []) {e : MapEntry}
    (h : f.bound ≤ valueFrom f.radix (f.get e) ds) (rest : List UInt8) :
    scan f.here e (bytesOf ds ++ rest) = .panic := by
  induction ds generalizing e with
  | nil => exact absurd rfl hds
  | cons d ds ih =>
      rw [bytesOf, List.map_cons, List.cons_append, scan, f.feed_eq, feedNumber,
        if_neg (f.separator_ne d), f.digit_eq]
      by_cases hnext : f.get e * f.radix + d < f.bound
      · rw [accumulate_ok hnext]
        have hvalue : f.bound ≤
            valueFrom f.radix (f.get (f.set e (f.get e * f.radix + d))) ds := by
          rw [f.get_set]
          exact h
        refine ih ?_ hvalue
        rintro rfl
        rw [f.get_set] at hvalue
        exact absurd hnext (Nat.not_lt.mpr hvalue)
      · have hpanic : accumulate f.bound f.radix (f.get e) (.ok d) = .error .panic := by
          rw [accumulate]
          split
          · exact if_neg hnext
          · rfl
        rw [hpanic]
        rfl

theorem bytesOf_eq_append {radix : Nat} {ds : List (Fin radix)} {a b : List UInt8}
    (h : bytesOf ds = a ++ b) : ∃ ds₁ ds₂, ds = ds₁ ++ ds₂ ∧ a = bytesOf ds₁ := by
  obtain ⟨ds₁, ds₂, hds, ha, -⟩ := List.map_eq_append_iff.mp h
  exact ⟨ds₁, ds₂, hds, ha.symm⟩

theorem bytesOf_zero {ds : List (Fin 16)} (h : ∀ c ∈ bytesOf ds, c = 48) :
    valueFrom 16 0 ds = 0 := by
  induction ds with
  | nil => rfl
  | cons d ds ih =>
      rw [bytesOf, List.map_cons, List.forall_mem_cons] at h
      obtain rfl := (digitByte_eq_zero d).mp h.1
      exact ih h.2

theorem valueFrom_pos {ds : List (Fin 16)} (h : ¬ ∀ c ∈ bytesOf ds, c = 48) :
    0 < valueFrom 16 0 ds := by
  induction ds with
  | nil => exact absurd (fun c hc => (nomatch hc)) h
  | cons d ds ih =>
      rw [bytesOf, List.map_cons, List.forall_mem_cons] at h
      by_cases hd : d = 0
      · subst hd
        exact ih fun hall => h ⟨rfl, hall⟩
      · have hpos : 0 < (0 * 16 + d.val) := by
          have hne : d.val ≠ 0 := fun heq => hd (Fin.ext heq)
          omega
        exact Nat.lt_of_lt_of_le hpos (le_valueFrom _ ds)

end Maps

end Libaflmm
