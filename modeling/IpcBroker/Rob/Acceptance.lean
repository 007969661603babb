import IpcBroker.Rob.Encoding

/-! What `parse_signature` accepts: the sentences of its grammar with their arguments, and three
kinds of input that are none. -/

namespace IpcBroker.Rob

/-- The grammar of signatures. -/
inductive Sentence : List Char → Prop
  | string : Sentence ['s']
  | integer : Sentence ['i']
  | null : Sentence ['n']
  | object (parts : List (List Char)) (h : ∀ p ∈ parts, Sentence p) :
      Sentence ('{' :: (parts.flatten ++ ['}']))
  | array (parts : List (List Char)) (h : ∀ p ∈ parts, Sentence p) :
      Sentence ('(' :: (parts.flatten ++ [')']))

def Accepts (chars : List Char) (args : List String) (v : Value) (r : List Char) (q : List String) :
    Prop :=
  ∃ sig used closers, Denotes sig used v ∧ chars ++ closers = sig ++ r ∧ args = used ++ q ∧
    (∀ c ∈ closers, IsClosing c) ∧ (closers = [] ∨ r = [])

def AcceptsLoop (bracket : Char) (chars : List Char) (r : List Char) (sigs : List Char) : Prop :=
  ∃ closers, chars ++ closers = sigs ++ bracket :: r ∧ (∀ c ∈ closers, IsClosing c) ∧
    (closers = [] ∨ r = [])

variable {chars r sig sigs rest : List Char} {args q used : List String} {v : Value} {bracket c : Char}

theorem AcceptsLoop.nil (h : IsClosing bracket) : AcceptsLoop bracket [] [] [] := by
  exact ⟨[bracket], rfl, fun c hc => List.mem_singleton.mp hc ▸ h, .inr rfl⟩

theorem AcceptsLoop.close : AcceptsLoop bracket (bracket :: r) r [] :=
  ⟨[], List.append_nil _, List.forall_mem_nil _, .inl rfl⟩

theorem AcceptsLoop.cons {closers : List Char} (hsig : chars ++ closers = sig ++ rest)
    (hclosing : ∀ c ∈ closers, IsClosing c) (hend : closers = [] ∨ rest = [])
    (h : AcceptsLoop bracket rest r sigs) : AcceptsLoop bracket chars r (sig ++ sigs) := by
  obtain ⟨closers', hsigs, hclosing', hend'⟩ := h
  refine ⟨closers ++ closers', ?_, fun c hc => ?_, ?_⟩
  · rw [← List.append_assoc, hsig, List.append_assoc, hsigs, List.append_assoc]
  · exact (List.mem_append.mp hc).elim (hclosing c) (hclosing' c)
  · obtain rfl | rfl := hend
    · exact hend'
    · refine .inr (hend'.resolve_left fun hnil => ?_)
      rw [hnil, List.append_nil] at hsigs
      exact List.append_ne_nil_of_right_ne_nil sigs (List.cons_ne_nil bracket r) hsigs.symm

theorem Accepts.whole {first : Char} (hd : Denotes (first :: (sigs ++ [bracket])) used v)
    (h : AcceptsLoop bracket chars r sigs) : Accepts (first :: chars) (used ++ q) v r q := by
  obtain ⟨closers, hchars, hclosing, hend⟩ := h
  refine ⟨_, used, closers, hd, ?_, rfl, hclosing, hend⟩
  rw [List.cons_append, hchars, List.cons_append, List.append_assoc, List.singleton_append]

theorem bind_ok {α β : Type} {x : Except String α} {f : α → Except String β} {b : β}
    (h : x.bind f = .ok b) : ∃ a, x = .ok a ∧ f a = .ok b := by
  cases x with
  | error e => cases h
  | ok a => exact ⟨a, rfl, h⟩

theorem map_ok {α β : Type} {x : Except String α} {f : α → β} {b : β} (h : x.map f = .ok b) :
    ∃ a, x = .ok a ∧ f a = b := by
  cases x with
  | error e => cases h
  | ok a => exact ⟨a, rfl, Except.ok.inj h⟩

theorem parseOut_shorter (h : parseOut chars args = .ok (v, r, q)) : r.length < chars.length := by
  obtain ⟨p, -, hout⟩ := map_ok h
  obtain ⟨-, hrest⟩ := Prod.mk.inj hout
  obtain ⟨rfl, -⟩ := Prod.mk.inj hrest
  exact p.consumed

def SoundUpTo (n : Nat) : Prop :=
  ∀ chars args v r q, chars.length ≤ n → parseOut chars args = .ok (v, r, q) →
    Accepts chars args v r q

theorem arrOut_sound {n : Nat} (ih : SoundUpTo n) (k : Nat) {arr arr' : List Value}
    (hk : chars.length < k) (hn : chars.length ≤ n) (h : arrOut chars args arr = .ok (arr', r, q)) :
    ∃ items : List Reading, (∀ x ∈ items, Denotes x.sig x.args x.value) ∧
      arr' = arr ++ items.map (·.value) ∧ args = items.flatMap (·.args) ++ q ∧
      AcceptsLoop ')' chars r (items.flatMap (·.sig)) := by
  induction k generalizing chars args arr with
  | zero => exact absurd hk (Nat.not_lt_zero _)
  | succ k ihk =>
    cases chars with
    | nil =>
      rw [arrOut_nil] at h
      cases h
      exact ⟨[], List.forall_mem_nil _, (List.append_nil _).symm, rfl, .nil (.inr rfl)⟩
    | cons c chars =>
      by_cases hc : c = ')'
      · subst hc
        rw [arrOut_close] at h
        cases h
        exact ⟨[], List.forall_mem_nil _, (List.append_nil _).symm, rfl, .close⟩
      · rw [arrOut_item hc] at h
        obtain ⟨⟨v, rest, q₁⟩, hparse, hloop⟩ := bind_ok h
        have hshort := parseOut_shorter hparse
        obtain ⟨sig, used, closers, hd, hsig, rfl, hclosing, hend⟩ := ih _ _ _ _ _ hn hparse
        obtain ⟨items, hitems, harr, hargs, hchars⟩ :=
          ihk (by simp only; omega) (by simp only; omega) hloop
        refine ⟨⟨sig, used, v⟩ :: items, ?_, ?_, ?_, hchars.cons hsig hclosing hend⟩
        · exact List.forall_mem_cons.mpr ⟨hd, hitems⟩
        · rw [harr, List.append_assoc, List.map_cons, List.singleton_append]
        · simp only at hargs
          rw [hargs, List.flatMap_cons, List.append_assoc]

theorem mapOut_sound {n : Nat} (ih : SoundUpTo n) (k : Nat) {map map' : List (String × Value)}
    (hk : chars.length < k) (hn : chars.length ≤ n) (h : mapOut chars args map = .ok (map', r, q)) :
    ∃ entries : List (String × Reading),
      (∀ e ∈ entries, Denotes e.2.sig e.2.args e.2.value) ∧
      map' = entries.foldl (fun map e => Value.insert e.1 e.2.value map) map ∧
      args = (entries.flatMap fun e => e.1 :: e.2.args) ++ q ∧
      AcceptsLoop '}' chars r (entries.flatMap (·.2.sig)) := by
  induction k generalizing chars args map with
  | zero => exact absurd hk (Nat.not_lt_zero _)
  | succ k ihk =>
    cases chars with
    | nil =>
      rw [mapOut_nil] at h
      cases h
      exact ⟨[], List.forall_mem_nil _, rfl, rfl, .nil (.inl rfl)⟩
    | cons c chars =>
      by_cases hc : c = '}'
      · subst hc
        rw [mapOut_close] at h
        cases h
        exact ⟨[], List.forall_mem_nil _, rfl, rfl, .close⟩
      · cases args with
        | nil =>
          rw [mapOut_noKey hc] at h
          cases h
        | cons key args =>
          rw [mapOut_entry hc] at h
          obtain ⟨⟨v, rest, q₁⟩, hparse, hloop⟩ := bind_ok h
          have hshort := parseOut_shorter hparse
          obtain ⟨sig, used, closers, hd, hsig, rfl, hclosing, hend⟩ := ih _ _ _ _ _ hn hparse
          obtain ⟨entries, hentries, hmap, hargs, hchars⟩ :=
            ihk (by simp only; omega) (by simp only; omega) hloop
          refine ⟨(key, ⟨sig, used, v⟩) :: entries, ?_, hmap, ?_, hchars.cons hsig hclosing hend⟩
          · exact List.forall_mem_cons.mpr ⟨hd, hentries⟩
          · simp only at hargs
            rw [hargs, List.flatMap_cons, List.cons_append, List.cons_append, List.append_assoc]

theorem Accepts.of_denotes (h : Denotes sig used v) : Accepts (sig ++ r) (used ++ q) v r q :=
  ⟨sig, used, [], h, List.append_nil _, rfl, List.forall_mem_nil _, .inl rfl⟩

theorem soundUpTo (n : Nat) : SoundUpTo n := by
  induction n with
  | zero =>
    intro chars args v r q hn h
    cases List.length_eq_zero_iff.mp (Nat.le_zero.mp hn)
    rw [parseOut_nil] at h
    cases h
  | succ n ih =>
    intro chars args v r q hn h
    cases chars with
    | nil =>
      rw [parseOut_nil] at h
      cases h
    | cons c chars =>
      have hshort : chars.length ≤ n := Nat.le_of_succ_le_succ hn
      obtain ⟨val, q', rfl, rfl, hok⟩ | ⟨val, num, q', rfl, rfl, hnum, hok⟩ | ⟨rfl, hok⟩ |
        ⟨rfl, hok⟩ | ⟨rfl, hok⟩ := parseOut_cases h
      · cases hok
        exact .of_denotes (.string val)
      · cases hok
        exact .of_denotes (.integer hnum)
      · cases hok
        exact .of_denotes .null
      · obtain ⟨⟨map, rest⟩, hloop, hok⟩ := map_ok hok
        cases hok
        obtain ⟨entries, hentries, rfl, rfl, hchars⟩ :=
          mapOut_sound ih _ (Nat.lt_succ_self _) hshort hloop
        exact .whole (.object entries hentries) hchars
      · obtain ⟨⟨arr, rest⟩, hloop, hok⟩ := map_ok hok
        cases hok
        obtain ⟨items, hitems, rfl, rfl, hchars⟩ :=
          arrOut_sound ih _ (Nat.lt_succ_self _) hshort hloop
        rw [List.nil_append]
        exact .whole (.array items hitems) hchars

theorem parseOut_sound (h : parseOut chars args = .ok (v, r, q)) : Accepts chars args v r q :=
  soundUpTo chars.length _ _ _ _ _ (Nat.le_refl _) h

/-! A signature whose last brackets are missing. -/

variable {closers : List Char}

theorem Denotes.of_closing (h : Denotes sig used v) (hsig : ∀ c ∈ sig, IsClosing c) : False := by
  obtain ⟨c, rest, rfl, hc⟩ := h.cons
  exact hc (hsig c List.mem_cons_self)

theorem Denotes.truncated_cons (h : Denotes sig used v) (hsig : chars ++ closers = sig)
    (hclosing : ∀ c ∈ closers, IsClosing c) : ∃ c rest, chars = c :: rest ∧ ¬ IsClosing c := by
  cases chars with
  | nil =>
    rw [List.nil_append] at hsig
    exact (h.of_closing (hsig ▸ hclosing)).elim
  | cons c chars =>
    obtain ⟨c', rest, hcons, hc⟩ := h.cons
    obtain ⟨rfl, -⟩ := List.cons_eq_cons.mp (hsig.trans hcons)
    exact ⟨c, chars, rfl, hc⟩

def Reading.ParsesTruncated (x : Reading) : Prop :=
  ∀ chars closers q, chars ++ closers = x.sig → (∀ c ∈ closers, IsClosing c) →
    parseOut chars (x.args ++ q) = .ok (x.value, [], q)

theorem arrOut_truncated {items : List Reading} (h : ∀ x ∈ items, Denotes x.sig x.args x.value)
    (ih : ∀ x ∈ items, x.ParsesTruncated) (hclosing : ∀ c ∈ closers, IsClosing c)
    (hchars : chars ++ closers = items.flatMap (·.sig) ++ [')']) (q : List String)
    (arr : List Value) :
    arrOut chars (items.flatMap (·.args) ++ q) arr = .ok (arr ++ items.map (·.value), [], q) := by
  induction items generalizing chars arr with
  | nil =>
    obtain ⟨rfl, -⟩ | ⟨rfl, -⟩ := List.append_eq_singleton_iff.mp hchars
    · rw [arrOut_nil, List.map_nil, List.append_nil]
      rfl
    · rw [arrOut_close, List.map_nil, List.append_nil]
      rfl
  | cons x items ihs =>
    have hx := h x List.mem_cons_self
    have hitems : ∀ y ∈ items, Denotes y.sig y.args y.value :=
      fun y hy => h y (List.mem_cons_of_mem x hy)
    rw [List.flatMap_cons, List.append_assoc] at hchars
    rw [List.flatMap_cons, List.append_assoc, List.map_cons]
    obtain ⟨t, hsig, ht⟩ | ⟨t, rfl, ht⟩ := List.append_eq_append_iff.mp hchars
    · -- the brackets that are missing begin in this item, so that it is the last one
      have hmissing : ∀ c ∈ t, IsClosing c := fun c hc => hclosing c (ht ▸ List.mem_append_left _ hc)
      have hlast : items = [] := by
        cases items with
        | nil => rfl
        | cons y items =>
          refine (Denotes.of_closing (hitems y List.mem_cons_self) fun c hc => hclosing c ?_).elim
          rw [ht, List.flatMap_cons]
          exact List.mem_append_right t (List.mem_append_left _ (List.mem_append_left _ hc))
      obtain ⟨c, rest, rfl, hc⟩ := hx.truncated_cons hsig.symm hmissing
      have hparse := ih x List.mem_cons_self _ _ (items.flatMap (·.args) ++ q) hsig.symm hmissing
      rw [arrOut_turn hc hparse, arrOut_nil, hlast]
      rfl
    · have hwhole := ihs hitems (fun y hy => ih y (List.mem_cons_of_mem x hy)) ht.symm
        (arr ++ [x.value])
      have hparse : x.Parses := parseOut_denotes hx
      rw [arrOut_reading hx hparse, hwhole, List.append_assoc, List.singleton_append]

theorem mapOut_truncated {entries : List (String × Reading)}
    (h : ∀ e ∈ entries, Denotes e.2.sig e.2.args e.2.value)
    (ih : ∀ e ∈ entries, e.2.ParsesTruncated) (hclosing : ∀ c ∈ closers, IsClosing c)
    (hchars : chars ++ closers = entries.flatMap (·.2.sig) ++ ['}']) (q : List String)
    (map : List (String × Value)) :
    mapOut chars ((entries.flatMap fun e => e.1 :: e.2.args) ++ q) map =
      .ok (entries.foldl (fun map e => Value.insert e.1 e.2.value map) map, [], q) := by
  induction entries generalizing chars map with
  | nil =>
    obtain ⟨rfl, -⟩ | ⟨rfl, -⟩ := List.append_eq_singleton_iff.mp hchars
    · exact mapOut_nil
    · exact mapOut_close
  | cons e entries ihs =>
    have he := h e List.mem_cons_self
    have hentries : ∀ y ∈ entries, Denotes y.2.sig y.2.args y.2.value :=
      fun y hy => h y (List.mem_cons_of_mem e hy)
    rw [List.flatMap_cons, List.append_assoc] at hchars
    rw [List.flatMap_cons, List.cons_append, List.cons_append, List.append_assoc, List.foldl_cons]
    obtain ⟨t, hsig, ht⟩ | ⟨t, rfl, ht⟩ := List.append_eq_append_iff.mp hchars
    · -- the brackets that are missing begin in this entry, so that it is the last one
      have hmissing : ∀ c ∈ t, IsClosing c := fun c hc => hclosing c (ht ▸ List.mem_append_left _ hc)
      have hlast : entries = [] := by
        cases entries with
        | nil => rfl
        | cons y entries =>
          refine (Denotes.of_closing (hentries y List.mem_cons_self) fun c hc => hclosing c ?_).elim
          rw [ht, List.flatMap_cons]
          exact List.mem_append_right t (List.mem_append_left _ (List.mem_append_left _ hc))
      obtain ⟨c, rest, rfl, hc⟩ := he.truncated_cons hsig.symm hmissing
      have hparse := ih e List.mem_cons_self _ _ ((entries.flatMap fun e => e.1 :: e.2.args) ++ q)
        hsig.symm hmissing
      rw [mapOut_turn hc hparse, mapOut_nil, hlast]
      rfl
    · have hparse : e.2.Parses := parseOut_denotes he
      rw [mapOut_reading he hparse]
      exact ihs hentries (fun y hy => ih y (List.mem_cons_of_mem e hy)) ht.symm _

theorem parseOut_truncated (h : Denotes sig used v) :
    ∀ chars closers q, chars ++ closers = sig → (∀ c ∈ closers, IsClosing c) →
      parseOut chars (used ++ q) = .ok (v, [], q) := by
  induction h with
  | string val =>
    intro chars closers q hsig hclosing
    obtain ⟨c, rest, rfl, -⟩ := (Denotes.string val).truncated_cons hsig hclosing
    obtain ⟨rfl, hrest⟩ := List.cons_eq_cons.mp hsig
    obtain ⟨rfl, -⟩ := List.append_eq_nil_iff.mp hrest
    exact parseOut_string
  | integer hnum =>
    intro chars closers q hsig hclosing
    obtain ⟨c, rest, rfl, -⟩ := (Denotes.integer hnum).truncated_cons hsig hclosing
    obtain ⟨rfl, hrest⟩ := List.cons_eq_cons.mp hsig
    obtain ⟨rfl, -⟩ := List.append_eq_nil_iff.mp hrest
    rw [List.singleton_append, parseOut_integer, hnum]
  | null =>
    intro chars closers q hsig hclosing
    obtain ⟨c, rest, rfl, -⟩ := Denotes.null.truncated_cons hsig hclosing
    obtain ⟨rfl, hrest⟩ := List.cons_eq_cons.mp hsig
    obtain ⟨rfl, -⟩ := List.append_eq_nil_iff.mp hrest
    exact parseOut_null
  | object entries h ih =>
    intro chars closers q hsig hclosing
    obtain ⟨c, rest, rfl, -⟩ := (Denotes.object entries h).truncated_cons hsig hclosing
    obtain ⟨rfl, hrest⟩ := List.cons_eq_cons.mp hsig
    rw [parseOut_object, mapOut_truncated h ih hclosing hrest]
    rfl
  | array items h ih =>
    intro chars closers q hsig hclosing
    obtain ⟨c, rest, rfl, -⟩ := (Denotes.array items h).truncated_cons hsig hclosing
    obtain ⟨rfl, hrest⟩ := List.cons_eq_cons.mp hsig
    rw [parseOut_array, arrOut_truncated h ih hclosing hrest, List.nil_append]
    rfl

/-- The parser accepts exactly the signatures, complete or with closing brackets missing at the end
of the text, together with the arguments they take. -/
theorem parseOut_iff : parseOut chars args = .ok (v, r, q) ↔ Accepts chars args v r q := by
  refine ⟨parseOut_sound, ?_⟩
  rintro ⟨sig, used, closers, hd, hsig, rfl, hclosing, hend⟩
  obtain rfl | rfl := hend
  · rw [List.append_nil] at hsig
    rw [hsig]
    exact parseOut_denotes hd r q
  · rw [List.append_nil] at hsig
    exact parseOut_truncated hd _ _ q hsig hclosing

/-! Sentences, whatever their arguments. -/

theorem Denotes.sentence (h : Denotes sig used v) : Sentence sig := by
  induction h with
  | string => exact .string
  | integer => exact .integer
  | null => exact .null
  | object entries h ih =>
    rw [List.flatMap_def]
    refine .object (entries.map (·.2.sig)) fun p hp => ?_
    obtain ⟨e, he, rfl⟩ := List.mem_map.mp hp
    exact ih e he
  | array items h ih =>
    rw [List.flatMap_def]
    refine .array (items.map (·.sig)) fun p hp => ?_
    obtain ⟨x, hx, rfl⟩ := List.mem_map.mp hp
    exact ih x hx

theorem exists_readings_zero {parts : List (List Char)}
    (h : ∀ p ∈ parts, ∃ n v, Denotes p (List.replicate n "0") v) :
    ∃ items : List Reading, items.map (·.sig) = parts ∧
      (∀ x ∈ items, Denotes x.sig x.args x.value) ∧ ∀ x ∈ items, ∀ arg ∈ x.args, arg = "0" := by
  induction parts with
  | nil => exact ⟨[], rfl, List.forall_mem_nil _, List.forall_mem_nil _⟩
  | cons p parts ih =>
    obtain ⟨n, v, hp⟩ := h p List.mem_cons_self
    obtain ⟨items, rfl, hitems, hzero⟩ := ih fun p hp => h p (List.mem_cons_of_mem _ hp)
    refine ⟨⟨p, List.replicate n "0", v⟩ :: items, rfl, ?_, ?_⟩
    · exact List.forall_mem_cons.mpr ⟨hp, hitems⟩
    · exact List.forall_mem_cons.mpr ⟨fun arg harg => List.eq_of_mem_replicate harg, hzero⟩

theorem Sentence.denotes_zero (h : Sentence sig) : ∃ n v, Denotes sig (List.replicate n "0") v := by
  induction h with
  | string => exact ⟨1, _, .string "0"⟩
  | integer =>
    have hzero : parseI64 "0" = some 0 := parseI64_decimal 0
    exact ⟨1, _, .integer hzero⟩
  | null => exact ⟨0, _, .null⟩
  | object parts h ih =>
    obtain ⟨items, rfl, hitems, hzero⟩ := exists_readings_zero ih
    have hall : ∀ arg ∈ (items.map fun x => ("0", x)).flatMap fun e => e.1 :: e.2.args,
        arg = "0" := by
      intro arg harg
      obtain ⟨e, he, harg⟩ := List.mem_flatMap.mp harg
      obtain ⟨x, hx, rfl⟩ := List.mem_map.mp he
      exact (List.mem_cons.mp harg).elim id (hzero x hx arg)
    have hd := Denotes.object (items.map fun x => ("0", x)) fun e he => by
      obtain ⟨x, hx, rfl⟩ := List.mem_map.mp he
      exact hitems x hx
    rw [List.eq_replicate_of_mem hall, List.flatMap_map, List.flatMap_def] at hd
    exact ⟨_, _, hd⟩
  | array parts h ih =>
    obtain ⟨items, rfl, hitems, hzero⟩ := exists_readings_zero ih
    have hall : ∀ arg ∈ items.flatMap (·.args), arg = "0" := by
      intro arg harg
      obtain ⟨x, hx, harg⟩ := List.mem_flatMap.mp harg
      exact hzero x hx arg harg
    have hd := Denotes.array items hitems
    rw [List.eq_replicate_of_mem hall, List.flatMap_def] at hd
    exact ⟨_, _, hd⟩

theorem Sentence.append_eq_nil (h : Sentence sig) (h' : Sentence (sig ++ rest)) : rest = [] := by
  obtain ⟨n, v, hd⟩ := h.denotes_zero
  obtain ⟨m, w, hd'⟩ := h'.denotes_zero
  have hshort := parseOut_denotes hd rest (List.replicate m "0")
  have hlong := parseOut_denotes hd' [] (List.replicate n "0")
  rw [List.replicate_append_replicate] at hshort hlong
  rw [List.append_nil, Nat.add_comm m n, hshort] at hlong
  have hout := Except.ok.inj hlong
  exact (Prod.mk.inj (Prod.mk.inj hout).2).1

/-- The arguments are those that the sentence takes: a key for each entry of an object, a number in
the range of `i64` for each integer. -/
def Takes (sig : List Char) (args : List String) : Prop := ∃ v, Denotes sig args v

/-- The three kinds of input outside of the grammar that `parse_signature` does not reject. -/
inductive Overlooked (sig : List Char) (args : List String) : Prop
  | trailingChars {s trailing : List Char} {used rest : List String} (h : Takes s used)
      (hsig : sig = s ++ trailing) (hargs : args = used ++ rest) (hne : trailing ≠ [])
  | unreadArgs {used rest : List String} (h : Takes sig used) (hargs : args = used ++ rest)
      (hne : rest ≠ [])
  | unclosed {closers : List Char} {used rest : List String} (h : Takes (sig ++ closers) used)
      (hargs : args = used ++ rest) (hclosing : ∀ c ∈ closers, IsClosing c) (hne : closers ≠ [])

/-- `main` gives the signature and the arguments to `parse_signature`: there is no flag among all its
arguments, and the signature is there. -/
structure Parses (args : List String) (sig : String) (sigArgs : List String) : Prop where
  flags : ∀ arg ∈ args, isVersion arg = false ∧ isHelp arg = false
  line : ∃ command object method, args = command :: object :: method :: sig :: sigArgs
  signature : sig ≠ ""

theorem parsedArgs_error_iff {sig : String} {err : IoError} :
    parsedArgs sig args = .error err ↔
      sig ≠ "" ∧ ∃ e, parseSignature sig args = .error e ∧ err = .custom .invalidInput e := by
  unfold parsedArgs
  constructor
  · intro h
    split_ifs at h with hsig
    split at h
    · cases h
    · next e he =>
      cases h
      exact ⟨hsig, e, he, rfl⟩
  · rintro ⟨hsig, e, he, rfl⟩
    rw [if_neg hsig, he]

theorem main_error_iff {err : IoError} :
    main args = .error err ↔ ∃ sig sigArgs e, Parses args sig sigArgs ∧
      parseSignature sig sigArgs = .error e ∧ err = .custom .invalidInput e := by
  have hflags : (args.any isVersion = false ∧ args.any isHelp = false) ↔
      ∀ arg ∈ args, isVersion arg = false ∧ isHelp arg = false := by
    simp only [List.any_eq_false, Bool.not_eq_true]
    exact ⟨fun h arg harg => ⟨h.1 arg harg, h.2 arg harg⟩,
      fun h => ⟨fun arg harg => (h arg harg).1, fun arg harg => (h arg harg).2⟩⟩
  constructor
  · intro h
    unfold main at h
    split_ifs at h with hversion hhelp
    rw [Bool.not_eq_true] at hversion hhelp
    split at h
    · next command object method rest =>
      cases rest with
      | nil => cases h
      | cons sig sigArgs =>
        simp only [List.head?_cons, Option.getD_some, List.tail_cons] at h
        cases hr : parsedArgs sig sigArgs with
        | ok v =>
          rw [hr] at h
          cases h
        | error err =>
          rw [hr] at h
          cases h
          obtain ⟨hsig, e, hparse, rfl⟩ := parsedArgs_error_iff.mp hr
          exact ⟨sig, sigArgs, e, ⟨hflags.mp ⟨hversion, hhelp⟩, ⟨_, _, _, rfl⟩, hsig⟩, hparse, rfl⟩
    · cases h
  · rintro ⟨sig, sigArgs, e, ⟨hnone, ⟨command, object, method, rfl⟩, hsig⟩, hparse, rfl⟩
    obtain ⟨hversion, hhelp⟩ := hflags.mpr hnone
    have hr := parsedArgs_error_iff.mpr ⟨hsig, e, hparse, rfl⟩
    simp only [main, hversion, hhelp, Bool.false_eq_true, if_false, List.head?_cons, Option.getD_some,
      List.tail_cons, hr]

/-- What is accepted is a sentence with all the arguments, and whatever is not is an error, which
`main` returns as `InvalidInput` on every command line that it parses. -/
structure RejectsOutside (sig : String) (args : List String) : Prop where
  accepted : ∀ v q, parseSignature sig args = .ok (v, q) → Sentence sig.toList ∧ q = []
  reported : ∀ e, parseSignature sig args = .error e → ∀ line, Parses line sig args →
    main line = .error (.custom .invalidInput e)

theorem parseSignature_ok {sig : String} :
    parseSignature sig args = .ok (v, q) ↔ ∃ r, Accepts sig.toList args v r q := by
  rw [parseSignature_eq]
  constructor
  · intro h
    obtain ⟨⟨v', r, q'⟩, hparse, hout⟩ := map_ok h
    cases hout
    exact ⟨r, parseOut_iff.mp hparse⟩
  · rintro ⟨r, h⟩
    rw [parseOut_iff.mpr h]
    rfl

/-- `parse_signature` rejects everything outside of its grammar but the inputs of three kinds. -/
theorem rejects_outside_iff (sig : String) (args : List String) :
    RejectsOutside sig args ↔ ¬ Overlooked sig.toList args := by
  constructor
  · intro h hover
    cases hover with
    | @trailingChars s trailing used rest htakes hsig hargs hne =>
      obtain ⟨v, hd⟩ := htakes
      have hok := parseSignature_ok.mpr ⟨trailing, hsig ▸ hargs ▸ Accepts.of_denotes hd⟩
      have hlong := (h.accepted v rest hok).1
      exact hne (hd.sentence.append_eq_nil (hsig ▸ hlong))
    | @unreadArgs used rest htakes hargs hne =>
      obtain ⟨v, hd⟩ := htakes
      have haccepts : Accepts (sig.toList ++ []) (used ++ rest) v [] rest := .of_denotes hd
      rw [List.append_nil] at haccepts
      exact hne (h.accepted v rest (parseSignature_ok.mpr ⟨[], hargs ▸ haccepts⟩)).2
    | @unclosed closers used rest htakes hargs hclosing hne =>
      obtain ⟨v, hd⟩ := htakes
      have haccepts : Accepts sig.toList args v [] rest :=
        ⟨_, used, closers, hd, (List.append_nil _).symm, hargs, hclosing, .inr rfl⟩
      have hshort := (h.accepted v rest (parseSignature_ok.mpr ⟨[], haccepts⟩)).1
      exact hne (hshort.append_eq_nil hd.sentence)
  · intro h
    refine ⟨fun v q hok => ?_, fun e he line hline => main_error_iff.mpr ⟨sig, args, e, hline, he, rfl⟩⟩
    obtain ⟨r, s, used, closers, hd, hchars, hargs, hclosing, hend⟩ := parseSignature_ok.mp hok
    have hclosed : closers = [] := by
      by_contra hne
      obtain rfl := hend.resolve_left hne
      rw [List.append_nil] at hchars
      exact h (.unclosed ⟨v, hchars ▸ hd⟩ hargs hclosing hne)
    rw [hclosed, List.append_nil] at hchars
    have hr : r = [] := by
      by_contra hne
      exact h (.trailingChars ⟨v, hd⟩ hchars hargs hne)
    rw [hr, List.append_nil] at hchars
    refine ⟨hchars ▸ hd.sentence, ?_⟩
    by_contra hne
    exact h (.unreadArgs ⟨v, hchars ▸ hd⟩ hargs hne)

/-- An array that is not closed is accepted, with no arguments. -/
theorem unclosed_array_accepted :
    parseSignature "(" [] = .ok (.array [], []) ∧ ¬ RejectsOutside "(" [] := by
  have hparse : parseSignature "(" [] = .ok (.array [], []) := by
    rw [parseSignature_eq]
    have hchars : "(".toList = ['('] := rfl
    rw [hchars, parseOut_array, arrOut_nil]
    rfl
  refine ⟨hparse, fun h => ?_⟩
  have hclosed : Sentence (['('] ++ [')']) := .array [] (List.forall_mem_nil _)
  have hnil := (h.accepted _ _ hparse).1.append_eq_nil hclosed
  cases hnil

end IpcBroker.Rob
