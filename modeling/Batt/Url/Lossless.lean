/-
  When the parser of URLs returns, and whether a URL can be written again from its parse.

  The host of a text ends at the next `:` or `/` (and the port at the next `/`), not at a `?` or a
  `#`: where no path follows, a query or a fragment stays in the host or is lost behind the digits
  of the port. `from_string` in turn takes less than a number for one (a sign, blanks), cuts what
  follows one, and replaces a number that is too large.

  `Lossless` says that a text is a spelling of its parse: the components in their places, each
  behind its mark, where an empty component may have its mark or not and the port may be spelled
  with a sign and leading zeros. `lossless_iff` says exactly which accepted texts these are.

  The views are always cut inside their text, and two of the three `BATT_PANIC` branches are out of
  reach. The third one is not: `parse_url_host` takes a host in brackets up to the closing bracket
  and then expects the end of the text, a port or a path, which nobody has checked
  (`returns_iff`).
-/
import Batt.Url.Pieces

namespace Batt.Url

open Delim
open FromString (EndsNumber Field fromString fromString_field i64 signText)

variable {uninit v : Int} {url number behind : View} {p : UrlParse} {r r' host : View} {w : Pieces}

/-! ## Spelled numbers -/

/-- A decimal spelling of a number: an optional sign and digits. -/
def Spells (text : View) (v : Int) : Prop :=
  ∃ (sign : Option Bool) (digits : View), digits ≠ [] ∧ (∀ c ∈ digits, c.isDigit = true) ∧
    text = signText sign ++ digits ∧ i64.convert (sign = some true) digits = v

/-- A spelled number that fits is read back, and one that does not is not. -/
theorem fromString_spells (h : Spells number v) (hend : EndsNumber behind) :
    fromString i64 uninit (number ++ behind) = some v ↔ i64.min ≤ v ∧ v ≤ i64.max := by
  obtain ⟨sign, digits, hne, hdigits, rfl, rfl⟩ := h
  have hfield := fromString_field (T := i64) (f := ⟨[], sign, digits, behind,
    fun c hc => absurd hc List.not_mem_nil, hdigits, hend⟩) uninit hne
  rwa [Field.text, List.nil_append, ← List.append_assoc] at hfield

/-- A spelled number has no delimiter in it. -/
theorem Spells.free (h : Spells number v) : Free ['/', '?', '#'] number := by
  obtain ⟨sign, digits, -, hdigits, rfl, -⟩ := h
  have hall : Free ['/', '?', '#'] digits := by
    intro c hc hmem
    have hd := hdigits c hc
    have hmark : c = '/' ∨ c = '?' ∨ c = '#' := by simpa using hmem
    rcases hmark with rfl | rfl | rfl <;> exact absurd hd (by decide)
  rcases sign with _ | _ | _ <;> simpa [signText] using hall

/-! ## The pieces of a text -/

/-- A text of the form `scheme://authority`, cut where the parser cuts it. -/
structure Pieces where
  scheme : View
  user : Option View
  bracketed : Bool
  host : View
  port : Option View
  tail : Tail

def Pieces.text (w : Pieces) : View :=
  w.scheme ++ ':' :: '/' :: '/' ::
    (userText w.user ++ (hostText w.bracketed w.host ++ (marked ':' w.port ++ w.tail.text)))

structure Pieces.WF (w : Pieces) : Prop where
  scheme : SchemeOk w.scheme
  user : UserOk w.user
  host : HostOk w.user w.bracketed w.host
  port : ∀ s, w.port = some s → Free ['/'] s
  tail : w.tail.WF
  rooted : w.tail.Rooted

theorem Pieces.WF.head_behind_host (h : w.WF) (c : Char)
    (hc : (marked ':' w.port ++ w.tail.text).head? = some c) : c ∈ [':', '/'] := by
  cases hport : w.port with
  | some s =>
    obtain rfl : ':' = c := by simpa [hport] using hc
    simp
  | none =>
    rcases h.rooted.text_cases with ⟨-, htext⟩ | ⟨r, htext⟩
    · simp [hport, htext] at hc
    · obtain rfl : '/' = c := by simpa [hport, htext] using hc
      simp

theorem parseUrl_text (h : w.WF) :
    parseUrl uninit w.text = .ok (finish uninit w.port w.tail
      { scheme := w.scheme, user := w.user.getD [], host := w.host }) := by
  rw [Pieces.text, parseUrl_auth h.scheme,
    parseUrlAuth_host h.user h.host (fun _ => h.head_behind_host),
    parseAfterHost_text h.port h.tail h.rooted rfl]

/-- The form of a URL in which an authority follows the scheme. -/
def HasAuthority (url : View) : Prop :=
  ∃ scheme rest, SchemeOk scheme ∧ url = scheme ++ ':' :: '/' :: '/' :: rest

/-- An accepted text has pieces. -/
theorem exists_pieces (h : parseUrl uninit url = .ok (.ok p)) (hform : HasAuthority url) :
    ∃ w : Pieces, w.WF ∧ url = w.text := by
  obtain ⟨scheme, rest, hs, rfl⟩ := hform
  rw [parseUrl_auth hs] at h
  rcases authority_cases rest with
    ⟨user, bracketed, host, rest, hu, hh, rfl, hrest⟩ | ⟨user, rest, hu, hfree, rfl⟩
  · rw [parseUrlAuth_host hu hh hrest] at h
    rcases afterHost_cases rest with ⟨port, t, hport, ht, hr, rfl⟩ | ⟨c, rest, rfl, hc⟩
    · exact ⟨⟨scheme, user, bracketed, host, port, t⟩, ⟨hs, hu, hh, hport, ht, hr⟩, rfl⟩
    · rw [parseAfterHost_other hc] at h
      cases h
  · rw [parseUrlAuth_unclosed hu hfree] at h
    cases h

/-! ## Spellings of a parse -/

/-- The marks of the components in a spelling, and the text of the port. -/
structure Marks where
  user : Bool
  bracketed : Bool
  port : Option View
  query : Bool
  fragment : Bool

/-- What a spelling has behind the port. -/
def Marks.back (m : Marks) (p : UrlParse) : View :=
  p.path ++ (marked '?' (if m.query then some p.query else none) ++
    marked '#' (if m.fragment then some p.fragment else none))

/-- A parse written out. -/
def Marks.render (m : Marks) (p : UrlParse) : View :=
  p.scheme ++ ':' :: '/' :: '/' ::
    (userText (if m.user then some p.user else none) ++
      (hostText m.bracketed p.host ++ (marked ':' m.port ++ m.back p)))

/-- A component that is not empty has its mark, and a port has a decimal spelling. -/
structure Marks.Fits (m : Marks) (p : UrlParse) : Prop where
  user : p.user ≠ [] → m.user
  port : match p.port, m.port with
    | none, none => True
    | some v, some text => Spells text v
    | _, _ => False
  query : p.query ≠ [] → m.query
  fragment : p.fragment ≠ [] → m.fragment

/-- A text is a spelling of its parse, the host has no delimiter in it, and the port goes to the
next delimiter. -/
def Lossless (url : View) (p : UrlParse) : Prop :=
  Free ['/', '?', '#', '@'] p.host ∧
    ∃ m : Marks, m.Fits p ∧ url = m.render p ∧
      ∀ c, (m.back p).head? = some c → c ∈ ['/', '?', '#']

/-- The pieces that can be written again. The port is a number that fits, with nothing behind it but
the marks of an empty query and an empty fragment that end the text. -/
structure Pieces.Clean (w : Pieces) : Prop where
  host : Free ['/', '?', '#', '@'] w.host
  port : ∀ s, w.port = some s → ∃ text v marks, s = text ++ marks ∧ Spells text v ∧
    i64.min ≤ v ∧ v ≤ i64.max ∧ marks ∈ [[], ['?'], ['#'], ['?', '#']] ∧
    (marks ≠ [] → w.tail.text = [])

/-! ## Writing a text again -/

theorem some_getD_of_isSome (o : Option View) :
    (if o.isSome then some (o.getD []) else none) = o := by
  cases o <;> rfl

/-- A text is a spelling of the components it is put together from. -/
theorem lossless_of_components {scheme : View} {user number : Option View} {bracketed : Bool}
    {port : Option Int} {t : Tail} (hhost : Free ['/', '?', '#', '@'] host)
    (hport : match port, number with
      | none, none => True
      | some v, some s => Spells s v
      | _, _ => False)
    (hhead : ∀ c, t.text.head? = some c → c ∈ ['/', '?', '#']) :
    Lossless (scheme ++ ':' :: '/' :: '/' ::
        (userText user ++ (hostText bracketed host ++ (marked ':' number ++ t.text))))
      (t.onto { scheme := scheme, user := user.getD [], host := host, port := port }) := by
  have hback : Marks.back ⟨user.isSome, bracketed, number, t.query.isSome, t.fragment.isSome⟩
      (t.onto { scheme := scheme, user := user.getD [], host := host, port := port }) = t.text := by
    simp [Marks.back, Tail.onto, Tail.text, some_getD_of_isSome]
  refine ⟨hhost, ⟨user.isSome, bracketed, number, t.query.isSome, t.fragment.isSome⟩, ?_, ?_, ?_⟩
  · refine ⟨?_, hport, ?_, ?_⟩
    · cases user <;> simp [Tail.onto]
    · cases hq : t.query <;> simp [Tail.onto, hq]
    · cases hf : t.fragment <;> simp [Tail.onto, hf]
  · rw [Marks.render, hback]
    simp [Tail.onto, some_getD_of_isSome]
  · rwa [hback]

theorem Tail.Rooted.head_mem {t : Tail} (h : t.Rooted) (c : Char) (hc : t.text.head? = some c) :
    c ∈ ['/', '?', '#'] := by
  rcases h.text_cases with ⟨-, htext⟩ | ⟨r, htext⟩
  · simp [htext] at hc
  · obtain rfl : '/' = c := by simpa [htext] using hc
    simp

/-- The marks that may follow the port at the end of a text. -/
theorem exists_tail_of_marks {marks : View} (h : marks ∈ [[], ['?'], ['#'], ['?', '#']]) :
    ∃ t : Tail, t.text = marks ∧ EndsNumber marks ∧ t.path = [] ∧ t.query.getD [] = [] ∧
      t.fragment.getD [] = [] ∧ ∀ c, marks.head? = some c → c ∈ ['/', '?', '#'] := by
  have hcases : marks = [] ∨ marks = ['?'] ∨ marks = ['#'] ∨ marks = ['?', '#'] := by simpa using h
  rcases hcases with rfl | rfl | rfl | rfl
  · exact ⟨⟨[], none, none⟩, rfl, by simp [EndsNumber], rfl, rfl, rfl, by simp⟩
  · exact ⟨⟨[], some [], none⟩, rfl, by simp [EndsNumber], rfl, rfl, rfl, by simp⟩
  · exact ⟨⟨[], none, some []⟩, rfl, by simp [EndsNumber], rfl, rfl, rfl, by simp⟩
  · exact ⟨⟨[], some [], some []⟩, rfl, by simp [EndsNumber], rfl, rfl, rfl, by simp⟩

/-- A text whose pieces are clean is a spelling of its parse. -/
theorem Pieces.Clean.lossless (h : w.WF) (hw : w.Clean) (hp : finish uninit w.port w.tail
      { scheme := w.scheme, user := w.user.getD [], host := w.host } = .ok p) :
    Lossless w.text p := by
  cases hport : w.port with
  | none =>
    obtain rfl : w.tail.onto { scheme := w.scheme, user := w.user.getD [], host := w.host } = p := by
      simpa [finish, hport] using hp
    rw [Pieces.text, hport]
    exact lossless_of_components hw.host trivial h.rooted.head_mem
  | some s =>
    obtain ⟨number, v, marks, rfl, hspell, hmin, hmax, hmarks, hlast⟩ := hw.port s hport
    obtain ⟨t, rfl, hend, hpath, hquery, hfragment, hhead⟩ := exists_tail_of_marks hmarks
    have hv : fromString i64 uninit (number ++ t.text) = some v :=
      (fromString_spells hspell hend).mpr ⟨hmin, hmax⟩
    obtain rfl : w.tail.onto
        { scheme := w.scheme, user := w.user.getD [], host := w.host, port := some v } = p := by
      simpa [finish, hport, hv] using hp
    rw [Pieces.text, hport]
    by_cases hnone : t.text = []
    · rw [hnone, List.append_nil]
      exact lossless_of_components hw.host hspell h.rooted.head_mem
    · -- nothing follows the marks, so they are those of an empty query and an empty fragment
      have htail : w.tail = ⟨[], none, none⟩ := by
        rcases h.rooted.text_cases with ⟨hnil, -⟩ | ⟨r, hr⟩
        · exact hnil
        · rw [hlast hnone] at hr
          cases hr
      have honto : ∀ q : UrlParse, q.query = [] → q.fragment = [] → w.tail.onto q = t.onto q := by
        intro q hq hf
        simp [htail, Tail.onto, hpath, hq, hf, hquery, hfragment]
      have htext : marked ':' (some (number ++ t.text)) ++ w.tail.text =
          marked ':' (some number) ++ t.text := by
        simp [hlast hnone]
      rw [honto _ rfl rfl, htext]
      exact lossless_of_components hw.host hspell hhead

/-! ## What a spelling says about the pieces -/

/-- A bracket cannot be taken for a part of the host when none follows the host. -/
theorem head_of_bracket_shift (h : '[' :: (host ++ r) = host ++ r') :
    r'.head? = some '[' := by
  induction host with
  | nil =>
    have h' : '[' :: r = r' := h
    rw [← h']
    rfl
  | cons a host ih =>
    obtain ⟨rfl, htail⟩ := List.cons.inj h
    exact ih htail

theorem behind_host_eq {b b' : Bool} (h : hostText b host ++ r = hostText b' host ++ r')
    (hr : r.head? ≠ some '[') (hr' : r'.head? ≠ some '[') : r = r' := by
  cases b with
  | false =>
    cases b' with
    | false => exact List.append_cancel_left h
    | true =>
      have hshift : '[' :: (host ++ ']' :: r') = host ++ r := by simpa [hostText] using h.symm
      exact absurd (head_of_bracket_shift hshift) hr
  | true =>
    cases b' with
    | false =>
      have hshift : '[' :: (host ++ ']' :: r) = host ++ r' := by simpa [hostText] using h
      exact absurd (head_of_bracket_shift hshift) hr'
    | true => exact List.append_cancel_left h

/-- What a host and what is behind it begin with is not the mark of a user. -/
theorem head_hostText {b : Bool} (hhost : Free ['@'] host) (hr : r.head? ≠ some '@') :
    (hostText b host ++ r).head? ≠ some '@' := by
  cases b with
  | true => simp [hostText]
  | false =>
    cases host with
    | nil => exact hr
    | cons a host => simpa [hostText] using (free_cons.mp hhost).1

theorem behind_user_eq {user : Option View} {mark : Bool}
    (h : userText user ++ r = userText (if mark then some (user.getD []) else none) ++ r')
    (hmark : user.getD [] ≠ [] → mark) (hr : r.head? ≠ some '@') (hr' : r'.head? ≠ some '@') :
    r = r' := by
  cases user with
  | none =>
    cases mark with
    | false => exact h
    | true =>
      have h' : r = '@' :: r' := by simpa [userText] using h
      simp [h'] at hr
  | some u =>
    cases mark with
    | true => exact List.append_cancel_left h
    | false =>
      obtain rfl : u = [] := by simpa using hmark
      have h' : '@' :: r = r' := by simpa [userText] using h
      simp [← h'] at hr'

/-- What a parse of an accepted text holds. -/
theorem finish_ok {port : Option View} {t : Tail} {q : UrlParse}
    (h : finish uninit port t q = .ok p) :
    port = none ∧ p = t.onto q ∨
      ∃ s v, port = some s ∧ fromString i64 uninit s = some v ∧
        p = t.onto { q with port := some v } := by
  cases port with
  | none => exact .inl ⟨rfl, by simpa [finish] using h.symm⟩
  | some s =>
    cases hv : fromString i64 uninit s with
    | none => simp [finish, hv] at h
    | some v => exact .inr ⟨s, v, rfl, hv, by simpa [finish, hv] using h.symm⟩

/-- Behind the host the text and its spelling agree. -/
theorem behind_eq {m : Marks} (hw : w.WF) (hscheme : p.scheme = w.scheme)
    (huser : p.user = w.user.getD []) (hhost : p.host = w.host)
    (hfree : Free ['/', '?', '#', '@'] w.host) (hfits : m.Fits p) (htext : w.text = m.render p)
    (hback : ∀ c, (m.back p).head? = some c → c ∈ ['/', '?', '#']) :
    marked ':' w.port ++ w.tail.text = marked ':' m.port ++ m.back p := by
  have hat : Free ['@'] w.host := hfree.mono (by simp)
  have hm : ∀ c, (marked ':' m.port ++ m.back p).head? = some c → c ∈ [':', '/', '?', '#'] := by
    intro c hc
    cases hport : m.port with
    | none =>
      rw [hport, marked_none, List.nil_append] at hc
      exact List.mem_cons_of_mem _ (hback c hc)
    | some s =>
      obtain rfl : ':' = c := by simpa [hport] using hc
      simp
  have hne : ∀ c, c ∉ [':', '/', '?', '#'] →
      (marked ':' w.port ++ w.tail.text).head? ≠ some c ∧
        (marked ':' m.port ++ m.back p).head? ≠ some c := by
    intro c hc
    refine ⟨fun h => hc ?_, fun h => hc (hm c h)⟩
    have hmem : c = ':' ∨ c = '/' := by simpa using hw.head_behind_host c h
    rcases hmem with rfl | rfl <;> simp
  rw [Pieces.text, Marks.render, hscheme, huser, hhost] at htext
  have hauth := List.cons.inj (List.cons.inj (List.cons.inj (List.append_cancel_left htext)).2).2
  have hbehind := behind_user_eq hauth.2 (huser ▸ hfits.user)
    (head_hostText hat (hne '@' (by decide)).1) (head_hostText hat (hne '@' (by decide)).2)
  exact behind_host_eq hbehind (hne '[' (by decide)).1 (hne '[' (by decide)).2

/-- A spelled port is what the text has up to its next delimiter, and the marks that end it. -/
theorem port_of_spelling {s number : View} {t : Tail} {m : Marks} (hs : Free ['/'] s)
    (hr : t.Rooted) (hspell : Spells number v)
    (hpath : p.path = t.path) (hquery : p.query = t.query.getD [])
    (hfragment : p.fragment = t.fragment.getD []) (h : s ++ t.text = number ++ m.back p) :
    ∃ marks, s = number ++ marks ∧ marks ∈ [[], ['?'], ['#'], ['?', '#']] ∧
      (marks ≠ [] → t.text = []) := by
  rcases hr with rfl | ⟨r, hroot⟩
  · -- nothing follows the port in the text, so that the spelling has nothing but marks there
    have hempty : p.path = [] ∧ p.query = [] ∧ p.fragment = [] := ⟨hpath, hquery, hfragment⟩
    refine ⟨m.back p, by simpa [Tail.text] using h, ?_, fun _ => rfl⟩
    rw [Marks.back, hempty.1, hempty.2.1, hempty.2.2]
    cases m.query <;> cases m.fragment <;> simp
  · -- a path follows, and both texts are cut at its first slash
    have hcut : s ++ '/' :: (r ++ (marked '?' t.query ++ marked '#' t.fragment)) =
        number ++ '/' :: (r ++ (marked '?' (if m.query then some p.query else none) ++
          marked '#' (if m.fragment then some p.fragment else none))) := by
      simpa [Tail.text, Marks.back, hpath, hroot] using h
    have hnumber : Free ['/'] number := hspell.free.mono (by simp)
    obtain ⟨rfl, -, -⟩ := cut_unique hcut hs (by simp) hnumber (by simp)
    exact ⟨[], by simp, by simp, by simp⟩

/-- A text that is a spelling of its parse has clean pieces. -/
theorem Pieces.clean_of_lossless (hw : w.WF) (hp : finish uninit w.port w.tail
      { scheme := w.scheme, user := w.user.getD [], host := w.host } = .ok p)
    (h : Lossless w.text p) : w.Clean := by
  obtain ⟨hfree, m, hfits, htext, hback⟩ := h
  rcases finish_ok hp with ⟨hnone, rfl⟩ | ⟨s, v, hport, hv, rfl⟩
  · exact ⟨hfree, by simp [hnone]⟩
  · refine ⟨hfree, ?_⟩
    rintro s' hs'
    obtain rfl : s = s' := by simpa [hport] using hs'
    have hbehind := behind_eq hw rfl rfl rfl hfree hfits htext hback
    have hspell := hfits.port
    cases hnumber : m.port with
    | none => simp [Tail.onto, hnumber] at hspell
    | some number =>
      replace hspell : Spells number v := by simpa [Tail.onto, hnumber] using hspell
      rw [hport, hnumber, marked_some, marked_some] at hbehind
      obtain ⟨marks, rfl, hmarks, hlast⟩ := port_of_spelling (hw.port s hport) hw.rooted hspell
        rfl rfl rfl (List.cons.inj hbehind).2
      obtain ⟨t, rfl, hend, -⟩ := exists_tail_of_marks hmarks
      obtain ⟨hmin, hmax⟩ := (fromString_spells hspell hend).mp hv
      exact ⟨number, v, t.text, rfl, hspell, hmin, hmax, hmarks, hlast⟩

/-! ## The texts that can be written again -/

/-- A text of the form `scheme://authority` whose host has no `?`, `#` or `@` and whose port is a
number that fits. -/
def CleanText (url : View) : Prop :=
  ∃ w : Pieces, w.WF ∧ w.Clean ∧ url = w.text

/-- **An accepted text with an authority is a spelling of its parse exactly when it is clean.** -/
theorem lossless_iff (uninit : Int) (url : View) (p : UrlParse)
    (h : parseUrl uninit url = .ok (.ok p)) (hform : HasAuthority url) :
    Lossless url p ↔ CleanText url := by
  constructor
  · intro hl
    obtain ⟨w, hw, rfl⟩ := exists_pieces h hform
    rw [parseUrl_text hw] at h
    exact ⟨w, hw, w.clean_of_lossless hw (Except.ok.inj h) hl, rfl⟩
  · rintro ⟨w, hw, hclean, rfl⟩
    rw [parseUrl_text hw] at h
    exact hclean.lossless hw (Except.ok.inj h)

theorem lossless_iff_bracketed_port :
    parseUrl 0 "http://[::1]:080/p?q".toList = .ok (.ok
      { scheme := "http".toList, host := "::1".toList, port := some 80, path := "/p".toList,
        query := "q".toList }) ∧
    (Lossless "http://[::1]:080/p?q".toList
      { scheme := "http".toList, host := "::1".toList, port := some 80, path := "/p".toList,
        query := "q".toList } ↔ CleanText "http://[::1]:080/p?q".toList) := by
  refine ⟨by decide, lossless_iff 0 _ _ (by decide) ?_⟩
  exact ⟨"http".toList, "[::1]:080/p?q".toList, by simp [SchemeOk], rfl⟩

/-- In `http://a?q` the query is a part of the host. -/
theorem query_in_host :
    ¬ ∀ (uninit : Int) (url : View) (p : UrlParse), parseUrl uninit url = .ok (.ok p) →
      HasAuthority url → Lossless url p := by
  intro h
  have hl := h 0 "http://a?q".toList { scheme := "http".toList, host := "a?q".toList } (by decide)
    ⟨"http".toList, "a?q".toList, by simp [SchemeOk], rfl⟩
  have hfree : Free ['/', '?', '#', '@'] "a?q".toList := hl.1
  simp at hfree

/-! ## When the parser returns -/

/-- A host in brackets with something behind it that is neither a port nor a path. -/
def BracketThenText (url : View) : Prop :=
  ∃ (scheme : View) (user : Option View) (host : View) (c : Char) (rest : View),
    SchemeOk scheme ∧ UserOk user ∧ Free [']'] host ∧ c ∉ [':', '/'] ∧
    url = scheme ++ ':' :: '/' :: '/' :: (userText user ++ (hostText true host ++ c :: rest))

theorem panic_of_bracketThenText (h : BracketThenText url) : parseUrl uninit url = .error .panic := by
  obtain ⟨scheme, user, host, c, rest, hs, hu, hh, hc, rfl⟩ := h
  have hhost : HostOk user true host := hh
  rw [parseUrl_auth hs, parseUrlAuth_host hu hhost (by simp), parseAfterHost_other hc]

theorem parseUrlPath_returns (url : View) (parse : UrlParse) :
    ∃ r, parseUrlPath url parse = .ok r := by
  obtain ⟨t, ht, rfl⟩ := exists_tail url
  exact ⟨_, parseUrlPath_text ht⟩

/-- Behind `scheme://` the parser returns unless a closing bracket is followed by text. -/
theorem parseUrlAuth_returns {scheme : View} (hs : SchemeOk scheme)
    (h : ¬ BracketThenText (scheme ++ ':' :: '/' :: '/' :: url)) :
    ∃ r, parseUrlAuth uninit url { scheme := scheme } = .ok r := by
  rcases authority_cases url with
    ⟨user, bracketed, host, rest, hu, hh, rfl, hrest⟩ | ⟨user, rest, hu, hfree, rfl⟩
  · rw [parseUrlAuth_host hu hh hrest]
    rcases afterHost_cases rest with ⟨port, t, hport, ht, hr, rfl⟩ | ⟨c, rest, rfl, hc⟩
    · exact ⟨_, parseAfterHost_text hport ht hr rfl⟩
    · cases bracketed with
      | true => exact absurd ⟨scheme, user, host, c, rest, hs, hu, hh, hc, rfl⟩ h
      | false => exact absurd (hrest rfl c rfl) hc
  · exact ⟨_, parseUrlAuth_unclosed hu hfree⟩

/-- A text without `://` behind its scheme is a scheme, a path, or both. -/
theorem parseUrl_returns (h : ¬ BracketThenText url) : ∃ r, parseUrl uninit url = .ok r := by
  cases url with
  | nil => exact ⟨_, rfl⟩
  | cons a url =>
    by_cases ha : a = '/'
    · obtain ⟨r, hr⟩ := parseUrlPath_returns (a :: url) {}
      exact ⟨r, by simp [parseUrl, ha, ← hr]⟩
    · rcases free_or_cut [':'] (a :: url) with hfree | ⟨scheme, c, rest, hcut, hscheme, hc⟩
      · exact ⟨.ok { scheme := a :: url }, by simp [parseUrl, ha, find, findFirstOf_free hfree]⟩
      · obtain rfl : c = ':' := by simpa using hc
        have hs : SchemeOk scheme := by
          refine ⟨hscheme, ?_⟩
          cases scheme with
          | nil => simp
          | cons b scheme =>
            obtain ⟨rfl, -⟩ := List.cons.inj hcut
            simpa using ha
        rw [hcut] at h ⊢
        by_cases hauth : ∃ behind, rest = '/' :: '/' :: behind
        · obtain ⟨behind, rfl⟩ := hauth
          rw [parseUrl_auth hs]
          exact parseUrlAuth_returns hs h
        · rw [parseUrl_path hs (fun behind hb => hauth ⟨behind, hb⟩)]
          exact parseUrlPath_returns rest { scheme := scheme }

/-- **The parser returns, with a parse or an error, exactly on the texts in which nothing but a port
or a path follows a host in brackets.** -/
theorem returns_iff (uninit : Int) (url : View) :
    (∃ r, parseUrl uninit url = .ok r) ↔ ¬ BracketThenText url := by
  constructor
  · rintro ⟨r, hr⟩ h
    rw [panic_of_bracketThenText h] at hr
    cases hr
  · exact parseUrl_returns

/-- Text behind a closing bracket takes the parser to its panic. -/
theorem panics_behind_bracket :
    parseUrl 0 "http://[::1]x".toList = .error .panic ∧
      ¬ ∀ (uninit : Int) (url : View), ∃ r, parseUrl uninit url = .ok r := by
  have hpanic : parseUrl 0 "http://[::1]x".toList = .error .panic := by decide
  refine ⟨hpanic, ?_⟩
  intro h
  obtain ⟨r, hr⟩ := h 0 "http://[::1]x".toList
  rw [hpanic] at hr
  cases hr

end Batt.Url
