import Mathlib.Data.List.Forall2
import Mathlib.Data.List.Infix
import TelnetChat.Text.Pieces

/-!
# A reader of chunks of a framed stream

Texts are sent one after the other, each with a `stop` after it.  The stream is
cut into chunks, and a reader takes of each chunk what stands before its first
`stop`.  It keeps the readings that are `good`.

If no part of a text after its start is `good`, the kept readings are prefixes
of distinct texts, in order (`reads_prefixes`).  They are all the texts if and
only if each text arrives whole in a chunk of its own, with its `stop` or with
the `stop` in the next chunk alone (`reads_eq_iff`).
-/

namespace Framing

variable {α : Type}

/-! ## Streams and readings -/

/-- The texts, each with a `stop` after it. -/
def stream (stop : α) (ts : List (List α)) : List α := ts.flatMap fun t => t ++ [stop]

/-- Each text arrives in a chunk of its own; its `stop` is in that chunk, or is
the next chunk. -/
inductive Whole (stop : α) : List (List α) → List (List α) → Prop where
  | nil : Whole stop [] []
  | joined {t : List α} {ts cs : List (List α)} : Whole stop ts cs →
      Whole stop (t :: ts) ((t ++ [stop]) :: cs)
  | apart {t : List α} {ts cs : List (List α)} : Whole stop ts cs →
      Whole stop (t :: ts) (t :: [stop] :: cs)

/-- The text holds no `stop`, and no part of it after its start is `good`. -/
structure Framed (stop : α) (good : List α → Prop) (t : List α) : Prop where
  stop_free : stop ∉ t
  tails : ∀ x r, x ≠ [] → t = x ++ r → ∀ y, y <:+: r → ¬ good y

/-- What is left of the stream of `ts`: all of it, or the rest of an earlier text
before it. -/
inductive Left (stop : α) (good : List α → Prop) : List (List α) → List α → Prop where
  | start (ts : List (List α)) : Left stop good ts (stream stop ts)
  | within {r : List α} (ts : List (List α)) : stop ∉ r → (∀ y, y <:+: r → ¬ good y) →
      Left stop good ts (r ++ stop :: stream stop ts)

section Cut

variable {stop : α} {good : List α → Prop} {t u x y z : List α} {ts cs : List (List α)}

@[simp] theorem stream_cons : stream stop (t :: ts) = t ++ stop :: stream stop ts := by
  simp [stream]

/-- A cut before or after the first `stop`. -/
theorem cut (h : x ++ y = t ++ stop :: u) :
    (∃ r, t = x ++ r ∧ y = r ++ stop :: u) ∨ ∃ x', x = t ++ stop :: x' ∧ u = x' ++ y := by
  rcases List.append_eq_append_iff.mp h with ⟨r, ht, hy⟩ | ⟨c, hx, hu⟩
  · exact Or.inl ⟨r, ht, hy⟩
  · cases c with
    | nil => exact Or.inl ⟨[], by simpa using hx.symm, hu.symm⟩
    | cons a x' =>
        obtain ⟨ha, hx'⟩ := List.cons.inj hu
        subst ha
        exact Or.inr ⟨x', hx, hx'⟩

theorem framed_of_suffix {ts' : List (List α)} (hts : ∀ t ∈ ts, Framed stop good t)
    (h : ts' <:+ ts) : ∀ t ∈ ts', Framed stop good t := fun t ht => hts t (h.subset ht)

/-- After a cut the rest of the stream is what is left of fewer texts. -/
theorem left_of_cut (hts : ∀ t ∈ ts, Framed stop good t) (h : x ++ y = stream stop ts)
    (hx : x ≠ []) :
    ∃ t ts' ts'', ts = t :: ts' ∧ ts'' <:+ ts' ∧ Left stop good ts'' y := by
  induction ts generalizing x with
  | nil => exact absurd (List.append_eq_nil_iff.mp h).1 hx
  | cons t ts ih =>
      rw [stream_cons] at h
      rcases cut h with ⟨r, ht, rfl⟩ | ⟨x', _, hu⟩
      · have hframed := hts t List.mem_cons_self
        have hr : stop ∉ r := fun hr => hframed.stop_free (by simp [ht, hr])
        exact ⟨t, ts, ts, rfl, List.suffix_refl _, .within ts hr (hframed.tails x r hx ht)⟩
      · by_cases hx' : x' = []
        · subst hx'
          rw [List.nil_append] at hu
          exact ⟨t, ts, ts, rfl, List.suffix_refl _, hu ▸ .start ts⟩
        · obtain ⟨t', ts', ts'', rfl, hsuffix, hleft⟩ :=
            ih (fun t ht => hts t (List.mem_cons_of_mem _ ht)) hu.symm hx'
          exact ⟨t, t' :: ts', ts'', rfl, hsuffix.trans (List.suffix_cons t' ts'), hleft⟩

theorem left_after (hts : ∀ t ∈ ts, Framed stop good t) (h : x ++ y = stream stop ts) :
    ∃ ts', ts' <:+ ts ∧ Left stop good ts' y := by
  by_cases hx : x = []
  · subst hx
    rw [List.nil_append] at h
    exact ⟨ts, List.suffix_refl _, h ▸ .start ts⟩
  · obtain ⟨t, ts', ts'', rfl, hsuffix, hleft⟩ := left_of_cut hts h hx
    exact ⟨ts'', hsuffix.trans (List.suffix_cons t ts'), hleft⟩

/-- A part of the stream without `stop` is a part of one text. -/
theorem infix_of_stream (h : z <:+: stream stop ts) (hz : stop ∉ z) :
    z = [] ∨ ∃ t ∈ ts, z <:+: t := by
  induction ts with
  | nil => exact Or.inl (List.eq_nil_of_infix_nil h)
  | cons t ts ih =>
      obtain ⟨a, b, hab⟩ := h
      rw [stream_cons] at hab
      rcases cut hab with ⟨r, ht, _⟩ | ⟨x', hx, hu⟩
      · exact Or.inr ⟨t, List.mem_cons_self, a, r, ht.symm⟩
      · rcases cut hx with ⟨r, _, hr⟩ | ⟨a', _, ha'⟩
        · exact absurd (by simp [hr]) hz
        · rcases ih ⟨a', b, by rw [hu, ha']⟩ with hnil | ⟨t', ht', hinfix⟩
          · exact Or.inl hnil
          · exact Or.inr ⟨t', List.mem_cons_of_mem _ ht', hinfix⟩

end Cut

/-! ## The kept readings -/

section Reads

variable [DecidableEq α]

/-- What is read of a chunk. -/
def reading (stop : α) (c : List α) : List α := c.takeWhile (· ≠ stop)

/-- The readings that are kept. -/
def reads (stop : α) (good : List α → Prop) [DecidablePred good] (cs : List (List α)) :
    List (List α) :=
  (cs.map (reading stop)).filter fun x => good x

variable {stop : α} {good : List α → Prop} [DecidablePred good] {c t u z : List α}
  {ts cs : List (List α)}

theorem reads_cons_of_good (h : good (reading stop c)) :
    reads stop good (c :: cs) = reading stop c :: reads stop good cs := by
  simp [reads, h]

theorem reads_cons_of_not_good (h : ¬ good (reading stop c)) :
    reads stop good (c :: cs) = reads stop good cs := by
  simp [reads, h]

theorem reading_of_notMem (h : stop ∉ c) : reading stop c = c := Text.takeWhile_of_notMem h

theorem reading_append (h : stop ∉ t) : reading stop (t ++ stop :: u) = t := Text.takeWhile_piece h

/-- A reading is a prefix of the text the chunk starts in. -/
theorem reading_isPrefix (h : c ++ z = t ++ stop :: u) (ht : stop ∉ t) : reading stop c <+: t := by
  rcases cut h with ⟨r, rfl, _⟩ | ⟨x', rfl, _⟩
  · rw [reading_of_notMem fun hc => ht (List.mem_append_left r hc)]
    exact List.prefix_append c r
  · rw [reading_append ht]

/-- The kept readings are prefixes of distinct texts, in order. -/
theorem reads_of_left (hts : ∀ t ∈ ts, Framed stop good t) (hcs : ∀ c ∈ cs, c ≠ [])
    (h : Left stop good ts cs.flatten) :
    ∃ ts', List.Forall₂ (· <+: ·) (reads stop good cs) ts' ∧ ts'.Sublist ts := by
  induction cs generalizing ts with
  | nil => exact ⟨[], .nil, List.nil_sublist _⟩
  | cons c cs ih =>
      have hcs' : ∀ c ∈ cs, c ≠ [] := fun c hc => hcs c (List.mem_cons_of_mem _ hc)
      have hc := hcs c List.mem_cons_self
      rw [List.flatten_cons] at h
      generalize hz : c ++ cs.flatten = z at h
      cases h with
      | start =>
          obtain ⟨t, ts', ts'', rfl, hsuffix, hleft⟩ := left_of_cut hts hz hc
          have hts'' := framed_of_suffix hts (hsuffix.trans (List.suffix_cons t ts'))
          obtain ⟨us, hus, hsub⟩ := ih hts'' hcs' hleft
          by_cases hgood : good (reading stop c)
          · rw [reads_cons_of_good hgood]
            rw [stream_cons] at hz
            have hread := reading_isPrefix hz (hts t List.mem_cons_self).stop_free
            exact ⟨t :: us, .cons hread hus, (hsub.trans hsuffix.sublist).cons_cons t⟩
          · rw [reads_cons_of_not_good hgood]
            exact ⟨us, hus, (hsub.trans hsuffix.sublist).cons t⟩
      | @within r _ hr htails =>
          have hgood : ¬ good (reading stop c) := htails _ (reading_isPrefix hz hr).isInfix
          rw [reads_cons_of_not_good hgood]
          rcases cut hz with ⟨r', rfl, hy⟩ | ⟨x', _, hu⟩
          · refine ih hts hcs' (hy ▸ .within ts ?_ ?_)
            · exact fun hr' => hr (List.mem_append_right c hr')
            · exact fun y hy => htails y (hy.trans (List.suffix_append c r').isInfix)
          · obtain ⟨ts', hsuffix, hleft⟩ := left_after hts hu.symm
            obtain ⟨us, hus, hsub⟩ := ih (framed_of_suffix hts hsuffix) hcs' hleft
            exact ⟨us, hus, hsub.trans hsuffix.sublist⟩

theorem reads_prefixes (hts : ∀ t ∈ ts, Framed stop good t) (hcs : ∀ c ∈ cs, c ≠ [])
    (h : cs.flatten = stream stop ts) :
    ∃ ts', List.Forall₂ (· <+: ·) (reads stop good cs) ts' ∧ ts'.Sublist ts :=
  reads_of_left hts hcs (h ▸ .start ts)

theorem length_reads_le (hts : ∀ t ∈ ts, Framed stop good t) (hcs : ∀ c ∈ cs, c ≠ [])
    (h : Left stop good ts cs.flatten) : (reads stop good cs).length ≤ ts.length := by
  obtain ⟨us, hus, hsub⟩ := reads_of_left hts hcs h
  rw [hus.length_eq]
  exact hsub.length_le

/-! ## All texts -/

/-- If what follows the cut yields all the texts, nothing of them was before it. -/
theorem nothing_before (hts : ∀ t ∈ ts, Framed stop good t) (hcs : ∀ c ∈ cs, c ≠ [])
    (h : stream stop ts = u ++ cs.flatten) (hlen : ts.length ≤ (reads stop good cs).length) :
    u = [] := by
  by_contra hu
  obtain ⟨t, ts', ts'', rfl, hsuffix, hleft⟩ := left_of_cut hts h.symm hu
  have hts'' := framed_of_suffix hts (hsuffix.trans (List.suffix_cons t ts'))
  have hle := length_reads_le hts'' hcs hleft
  have hle' := hsuffix.length_le
  rw [List.length_cons] at hlen
  omega

/-- A `stop` that is left before all the texts is a chunk of its own. -/
theorem stop_chunk (hnil : ¬ good []) (hts : ∀ t ∈ ts, Framed stop good t)
    (hcs : ∀ c ∈ cs, c ≠ []) (h : cs.flatten = stop :: stream stop ts)
    (hreads : reads stop good cs = ts) :
    ∃ ds, cs = [stop] :: ds ∧ (∀ d ∈ ds, d ≠ []) ∧ ds.flatten = stream stop ts ∧
      reads stop good ds = ts := by
  cases cs with
  | nil => cases h
  | cons d ds =>
      have hds : ∀ d ∈ ds, d ≠ [] := fun d hd => hcs d (List.mem_cons_of_mem _ hd)
      rw [List.flatten_cons] at h
      rcases cut (t := []) h with ⟨r, hr, _⟩ | ⟨x', hd, hu⟩
      · exact absurd (List.append_eq_nil_iff.mp hr.symm).1 (hcs d List.mem_cons_self)
      · have hread : reading stop d = [] := by
          rw [hd]
          exact reading_append (by simp)
        rw [reads_cons_of_not_good (by rwa [hread])] at hreads
        obtain rfl := nothing_before hts hds hu (by rw [hreads])
        exact ⟨ds, by rw [hd, List.nil_append], hds, hu.symm, hreads⟩

theorem whole_of_reads (hnil : ¬ good []) (hts : ∀ t ∈ ts, Framed stop good t)
    (hcs : ∀ c ∈ cs, c ≠ []) (h : cs.flatten = stream stop ts) (hreads : reads stop good cs = ts) :
    Whole stop ts cs := by
  induction ts generalizing cs with
  | nil =>
      cases cs with
      | nil => exact .nil
      | cons c cs => exact absurd (List.append_eq_nil_iff.mp h).1 (hcs c List.mem_cons_self)
  | cons t ts ih =>
      have hts' : ∀ t ∈ ts, Framed stop good t := fun t ht => hts t (List.mem_cons_of_mem _ ht)
      have hstop := (hts t List.mem_cons_self).stop_free
      rw [stream_cons] at h
      cases cs with
      | nil => exact absurd h.symm (by simp)
      | cons c cs =>
          have hcs' : ∀ c ∈ cs, c ≠ [] := fun c hc => hcs c (List.mem_cons_of_mem _ hc)
          rw [List.flatten_cons] at h
          -- the first chunk is kept, since what follows it has too few texts
          have hgood : good (reading stop c) := by
            by_contra hgood
            rw [reads_cons_of_not_good hgood] at hreads
            have hc := nothing_before hts hcs' (by rw [stream_cons, h]) (by rw [hreads])
            exact hcs c List.mem_cons_self hc
          rw [reads_cons_of_good hgood, List.cons.injEq] at hreads
          obtain ⟨hread, hreads⟩ := hreads
          rcases cut h with ⟨r, ht, hy⟩ | ⟨x', hx, hu⟩
          · have hcstop : stop ∉ c := fun hc => hstop (by simp [ht, hc])
            rw [reading_of_notMem hcstop] at hread
            subst hread
            obtain rfl : r = [] := by simpa using ht
            rw [List.nil_append] at hy
            obtain ⟨ds, rfl, hds, hflat, hreads⟩ := stop_chunk hnil hts' hcs' hy hreads
            exact .apart (ih hts' hds hflat hreads)
          · obtain rfl := nothing_before hts' hcs' hu (by rw [hreads])
            rw [hx]
            exact .joined (ih hts' hcs' hu.symm hreads)

theorem reads_of_whole (hnil : ¬ good []) (hts : ∀ t ∈ ts, stop ∉ t ∧ good t)
    (h : Whole stop ts cs) : reads stop good cs = ts := by
  induction h with
  | nil => rfl
  | @joined t ts cs _ ih =>
      obtain ⟨hstop, hgood⟩ := hts t List.mem_cons_self
      have hread : reading stop (t ++ [stop]) = t := reading_append hstop
      rw [reads_cons_of_good (by rwa [hread]), hread,
        ih fun t ht => hts t (List.mem_cons_of_mem _ ht)]
  | @apart t ts cs _ ih =>
      obtain ⟨hstop, hgood⟩ := hts t List.mem_cons_self
      have hread : reading stop t = t := reading_of_notMem hstop
      have hread' : reading stop [stop] = [] := reading_append (t := []) (by simp)
      rw [reads_cons_of_good (by rwa [hread]), reads_cons_of_not_good (by rwa [hread']), hread,
        ih fun t ht => hts t (List.mem_cons_of_mem _ ht)]

/-- The kept readings are the texts if and only if each text arrives whole in a
chunk of its own. -/
theorem reads_eq_iff (hnil : ¬ good []) (hts : ∀ t ∈ ts, Framed stop good t ∧ good t)
    (hcs : ∀ c ∈ cs, c ≠ []) (h : cs.flatten = stream stop ts) :
    reads stop good cs = ts ↔ Whole stop ts cs :=
  ⟨whole_of_reads hnil (fun t ht => (hts t ht).1) hcs h,
    reads_of_whole hnil fun t ht => ⟨(hts t ht).1.stop_free, (hts t ht).2⟩⟩

end Reads

end Framing
