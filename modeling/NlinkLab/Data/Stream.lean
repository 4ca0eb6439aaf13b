import Mathlib

/-! Items cut one after another from a growing buffer. What a framing has once answered
does not depend on the bytes that follow, so a reader that is handed a stream in chunks
reads what it would read from the whole. -/

namespace NlinkLab

/-- One item at the start of a buffer: `none` while it is incomplete, else the item and
how many bytes it took. -/
structure Framing (B A E : Type) where
  decode : List B → Except E (Option (A × Nat))
  used : ∀ {buf a n}, decode buf = .ok (some (a, n)) → 0 < n ∧ n ≤ buf.length
  stable : ∀ {buf r}, decode buf = r → r ≠ .ok none → ∀ more, decode (buf ++ more) = r

/-- The items a reader has read, and the rest of its buffer, or why it has stopped. -/
@[ext] structure Reader (B A E : Type) where
  items : List A
  rest : Except E (List B)

namespace Reader

variable {B A E : Type}

/-- A reader that had read `l` before. -/
def after (r : Reader B A E) (l : List A) : Reader B A E := { r with items := l ++ r.items }

@[simp] theorem after_nil (r : Reader B A E) : r.after [] = r := rfl

@[simp] theorem after_items (r : Reader B A E) (l : List A) : (r.after l).items = l ++ r.items := rfl

@[simp] theorem after_rest (r : Reader B A E) (l : List A) : (r.after l).rest = r.rest := rfl

theorem after_after (r : Reader B A E) (l m : List A) : (r.after l).after m = r.after (m ++ l) := by
  simp [after]

end Reader

namespace Framing

variable {B A E : Type} (c : Framing B A E)

/-- Read whole items from the start of a buffer. -/
def read (buf : List B) : Reader B A E :=
  match _h : c.decode buf with
  | .error e => ⟨[], .error e⟩
  | .ok none => ⟨[], .ok buf⟩
  | .ok (some (a, n)) => (read (buf.drop n)).after [a]
termination_by buf.length
decreasing_by
  have := c.used _h
  rw [List.length_drop]
  omega

/-- A chunk arrives. -/
def feed (r : Reader B A E) (chunk : List B) : Reader B A E :=
  match r.rest with
  | .error _ => r
  | .ok buf => (c.read (buf ++ chunk)).after r.items

/-- Everything read from a stream that arrives in chunks. -/
def reads (chunks : List (List B)) : Reader B A E := chunks.foldl c.feed ⟨[], .ok []⟩

variable {c}

theorem read_of_error {buf : List B} {e : E} (h : c.decode buf = .error e) :
    c.read buf = ⟨[], .error e⟩ := by
  rw [read]
  split <;> simp_all

theorem read_of_none {buf : List B} (h : c.decode buf = .ok none) : c.read buf = ⟨[], .ok buf⟩ := by
  rw [read]
  split <;> simp_all

theorem read_of_some {buf : List B} {a : A} {n : Nat} (h : c.decode buf = .ok (some (a, n))) :
    c.read buf = (c.read (buf.drop n)).after [a] := by
  rw [read]
  split <;> simp_all

/-- Bytes that come later are read after what was already there. -/
theorem read_append (buf more : List B) : c.read (buf ++ more) = c.feed (c.read buf) more := by
  induction buf using read.induct c with
  | case1 buf e he =>
    rw [read_of_error (c.stable he nofun more), read_of_error he]
    rfl
  | case2 buf hn =>
    rw [read_of_none hn]
    rfl
  | case3 buf a n hs ih =>
    have hn := (c.used hs).2
    rw [read_of_some (c.stable hs nofun more), read_of_some hs, List.drop_append_of_le_length hn, ih]
    simp only [feed, Reader.after_rest, Reader.after_items]
    cases (c.read (buf.drop n)).rest with
    | error e => rfl
    | ok rest => exact Reader.after_after ..

theorem foldl_feed (buf : List B) (chunks : List (List B)) :
    chunks.foldl c.feed (c.read buf) = c.read (buf ++ chunks.flatten) := by
  induction chunks generalizing buf with
  | nil => simp
  | cons chunk chunks ih =>
    rw [List.foldl_cons, ← read_append, ih, List.flatten_cons, List.append_assoc]

/-- The chunks a stream arrives in do not matter. -/
theorem reads_eq (hnil : c.decode [] = .ok none) (chunks : List (List B)) :
    c.reads chunks = c.read chunks.flatten := by
  rw [reads, ← read_of_none hnil, foldl_feed, List.nil_append]

end Framing

/-! ### Codes -/

/-- An encoding that the framing reads back exactly when the item fits. -/
structure Codec (B A E : Type) extends Framing B A E where
  encode : A → List B
  fits : A → Prop
  decode_encode : ∀ {a more n},
    decode (encode a ++ more) = .ok (some (a, n)) ↔ fits a ∧ n = (encode a).length
  encode_decode : ∀ {buf a n}, decode buf = .ok (some (a, n)) → encode a = buf.take n

namespace Codec

variable {B A E : Type} {c : Codec B A E}

theorem decode_of_fits {a : A} (h : c.fits a) (more : List B) :
    c.decode (c.encode a ++ more) = .ok (some (a, (c.encode a).length)) :=
  c.decode_encode.mpr ⟨h, rfl⟩

/-- A proper prefix of an encoded item is incomplete. -/
theorem decode_prefixed {a : A} {pre : List B} (h : c.fits a) (hpre : pre <+: c.encode a)
    (hne : pre ≠ c.encode a) : c.decode pre = .ok none := by
  by_contra hsome
  obtain ⟨more, hmore⟩ := hpre
  have hd : c.decode pre = .ok (some (a, (c.encode a).length)) := by
    rw [← c.stable rfl hsome more, hmore, ← decode_of_fits h [], List.append_nil]
  have hlen : (c.encode a).length ≤ pre.length := (c.used hd).2
  have : more = [] := by
    apply List.length_eq_zero_iff.mp
    have := congrArg List.length hmore
    rw [List.length_append] at this
    omega
  exact hne (by simpa [this] using hmore)

theorem read_encode {l : List A} (h : ∀ a ∈ l, c.fits a) (more : List B) :
    c.read (l.flatMap c.encode ++ more) = (c.read more).after l := by
  induction l with
  | nil => rfl
  | cons a l ih =>
    have ha : c.fits a := h a List.mem_cons_self
    rw [List.flatMap_cons, List.append_assoc, Framing.read_of_some (decode_of_fits ha _),
      List.drop_left, ih fun b hb => h b (List.mem_cons_of_mem _ hb), Reader.after_after]
    rfl

/-- A stream of encoded items is read back exactly when each of them fits. -/
theorem read_eq_iff {l : List A} {rest : List B} (hrest : c.decode rest = .ok none) :
    c.read (l.flatMap c.encode ++ rest) = ⟨l, .ok rest⟩ ↔ ∀ a ∈ l, c.fits a := by
  refine ⟨fun h => ?_, fun h => ?_⟩
  · induction l with
    | nil => simp
    | cons a l ih =>
      rw [List.flatMap_cons, List.append_assoc] at h
      rcases hd : c.decode (c.encode a ++ (l.flatMap c.encode ++ rest)) with e | ⟨⟩ | ⟨b, n⟩
      · rw [Framing.read_of_error hd] at h
        simp at h
      · rw [Framing.read_of_none hd] at h
        simp at h
      · rw [Framing.read_of_some hd, Reader.after, Reader.mk.injEq, List.singleton_append,
          List.cons.injEq] at h
        obtain ⟨⟨rfl, hitems⟩, hok⟩ := h
        obtain ⟨hfits, rfl⟩ := c.decode_encode.mp hd
        rw [List.drop_left] at hitems hok
        exact List.forall_mem_cons.mpr ⟨hfits, ih (Reader.ext hitems hok)⟩
  · rw [read_encode h, Framing.read_of_none hrest]
    simp [Reader.after]

end Codec

end NlinkLab
