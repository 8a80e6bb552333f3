/-
What `HttpUrl::get_url` writes is read back by `parse_url` as the same URL. No
part of an accepted URL has a character that would move one of the cuts: the
host has no `@`, and no colon or bracket unless it is an IPv6 address, which
ends in a bracket; the port has neither; the query begins with a slash and has
no byte that is escaped or trimmed.
-/
import Tdlib.Url.HttpUrl

namespace Tdlib.Url

open List hiding pure_def
open Text Outcome

variable {str data rest : Bytes} {c : UInt8}

theorem readTillNofail_eq {start : Bytes} (hstart : ∀ c ∈ start, c ∉ str) (hrest : ∀ c ∈ rest.head?, c ∈ str) :
    readTillNofail str (start ++ rest) = (start, rest) := by
  have hpos : ∀ c ∈ start, (!str.contains c) = true := fun c hc => by simpa using hstart c hc
  rw [readTillNofail, takeWhile_append_of_pos hpos, dropWhile_append_of_pos hpos]
  cases rest with
  | nil => simp
  | cons c rest =>
    have hc : c ∈ str := hrest c rfl
    simp [hc]

theorem readTillNofail_spec (str data : Bytes) : (readTillNofail str data).1 ++ (readTillNofail str data).2 = data ∧
      (∀ c ∈ (readTillNofail str data).1, c ∉ str) ∧ ∀ c ∈ (readTillNofail str data).2.head?, c ∈ str := by
  refine ⟨takeWhile_append_dropWhile, fun c hc => ?_, fun c hc => ?_⟩
  · simpa using mem_takeWhile_imp hc
  · induction data with
    | nil => simp [readTillNofail] at hc
    | cons d data ih =>
      by_cases hd : d ∈ str
      · have heq : d = c := by simpa [readTillNofail, hd] using hc
        exact heq ▸ hd
      · apply ih
        simpa [readTillNofail, hd] using hc

/-! ## Lower case -/

/-- Lower case changes letters only, to letters. -/
theorem toLowerByte_facts (c : UInt8) : toLowerByte (toLowerByte c) = toLowerByte c ∧
      ∀ d ∈ ascii "/?#@[]:.", toLowerByte c = d ↔ c = d := by
  have hall : toLowerByte (toLowerByte c) = toLowerByte c ∧
      ([47, 63, 35, 64, 91, 93, 58, 46].all fun d => decide (toLowerByte c = d ↔ c = d)) = true := by
    refine forall_byte (P := fun c => toLowerByte (toLowerByte c) = toLowerByte c ∧
      ([47, 63, 35, 64, 91, 93, 58, 46].all fun d => decide (toLowerByte c = d ↔ c = d)) = true) ?_ c
    decide +kernel
  exact ⟨hall.1, forall_mem_of_all hall.2⟩

theorem toLower_toLower (s : Bytes) : toLower (toLower s) = toLower s := by
  rw [toLower, toLower, map_map]
  exact map_congr_left fun c _ => (toLowerByte_facts c).1

section

variable {d : UInt8} (hd : d ∈ ascii "/?#@[]:.")

include hd

theorem mem_toLower {s : Bytes} : d ∈ toLower s ↔ d ∈ s := by
  rw [toLower, mem_map]
  constructor
  · rintro ⟨c, hc, hcd⟩
    exact ((toLowerByte_facts c).2 d hd).mp hcd ▸ hc
  · exact fun h => ⟨d, h, ((toLowerByte_facts d).2 d hd).mpr rfl⟩

theorem head?_toLower {s : Bytes} : (toLower s).head? = some d ↔ s.head? = some d := by
  cases s with
  | nil => simp [toLower]
  | cons c s => simpa [toLower] using (toLowerByte_facts c).2 d hd

theorem getLast?_toLower {s : Bytes} : (toLower s).getLast? = some d ↔ s.getLast? = some d := by
  rw [List.getLast?_eq_head?_reverse, List.getLast?_eq_head?_reverse, toLower, ← map_reverse]
  exact head?_toLower hd

end

variable {s : Bytes} {userinfo host : Bytes}

theorem toLower_eq_dot : toLower s = ascii "." ↔ s = ascii "." := by
  match s with
  | [] => simp [toLower, ascii]
  | [c] =>
    have := (toLowerByte_facts c).2 (chr '.') (by decide)
    simpa [toLower, ascii] using this
  | c :: d :: s => simp [toLower, ascii]

theorem toLower_eq_nil : toLower s = [] ↔ s = [] := map_eq_nil_iff

/-! ## Queries -/

theorem lt_of_mem_escapeByte {b : UInt8} (h : b ∈ escapeByte c) : 0x20 < b.toNat := by
  have hall : ((escapeByte c).all fun b => 0x20 < b.toNat) = true := by
    refine forall_byte (P := fun c => ((escapeByte c).all fun b => 0x20 < b.toNat) = true) ?_ c
    decide +kernel
  exact forall_mem_of_all hall b h

theorem escapeByte_of_lt (h : 0x20 < c.toNat) : escapeByte c = [c] := if_neg (not_le.mpr h)

theorem isSpace_of_lt (h : 0x20 < c.toNat) : isSpace c = false := by
  have hall : 0x20 < c.toNat → isSpace c = false := by
    refine forall_byte (P := fun c => 0x20 < c.toNat → isSpace c = false) ?_ c
    decide +kernel
  exact hall h

theorem normalizeQuery_spec (data : Bytes) :
    (normalizeQuery data).head? = some (chr '/') ∧ ∀ b ∈ normalizeQuery data, 0x20 < b.toNat := by
  unfold normalizeQuery
  dsimp only
  generalize hquery : (if data.rdropWhile isSpace = [] then ascii "/" else data.rdropWhile isSpace) = query
  have hne : query ≠ [] := by
    rw [← hquery]
    split
    · decide
    · assumption
  constructor
  · obtain ⟨c, query, rfl⟩ := exists_cons_of_ne_nil hne
    by_cases hc : c = chr '/'
    · subst hc
      rfl
    · rw [if_pos (by simpa using hc)]
      rfl
  · intro b hb
    rcases mem_append.mp hb with hb | hb
    · split at hb
      · obtain rfl : b = chr '/' := mem_singleton.mp hb
        decide
      · cases hb
    · obtain ⟨c, -, hbc⟩ := mem_flatMap.mp hb
      exact lt_of_mem_escapeByte hbc

theorem normalizeQuery_eq {query : Bytes} (hhead : query.head? = some (chr '/')) (hall : ∀ b ∈ query, 0x20 < b.toNat) :
    normalizeQuery query = query := by
  have hne : query ≠ [] := by
    rintro rfl
    cases hhead
  have htrim : query.rdropWhile isSpace = query := by
    rw [rdropWhile_eq_self_iff]
    intro hl
    rw [isSpace_of_lt (hall _ (getLast_mem hl))]
    simp
  have hescape : query.flatMap escapeByte = query := by
    conv_rhs => rw [← flatMap_singleton' query]
    exact flatMap_congr fun c hc => escapeByte_of_lt (hall c hc)
  simp [normalizeQuery, htrim, hne, hhead, hescape]

/-! ## Ports -/

theorem colonLoop_spec (data : Bytes) (pos : Nat) :
    colonLoop data pos ≤ pos ∧ (0 < colonLoop data pos → StopsPort (data.getD (colonLoop data pos) 0)) ∧
      ∀ k, colonLoop data pos < k → k ≤ pos → ¬ StopsPort (data.getD k 0) := by
  induction pos with
  | zero => exact ⟨le_refl _, fun h => absurd h (by simp [colonLoop]), fun k h1 h2 => by omega⟩
  | succ pos ih =>
    rw [colonLoop]
    by_cases hstop : StopsPort (data.getD (pos + 1) 0)
    · simp_all
    · rw [if_neg hstop]
      refine ⟨by omega, ih.2.1, fun k h1 h2 => ?_⟩
      by_cases hk : k = pos + 1
      · exact hk ▸ hstop
      · exact ih.2.2 k h1 (by omega)

theorem colonLoop_eq {pos k : Nat} (hk : k ≤ pos) (hstop : 0 < k → StopsPort (data.getD k 0))
    (hafter : ∀ j, k < j → j ≤ pos → ¬ StopsPort (data.getD j 0)) : colonLoop data pos = k := by
  obtain ⟨hle, hfound, hnone⟩ := colonLoop_spec data pos
  rcases lt_trichotomy (colonLoop data pos) k with h | h | h
  · exact absurd (hstop (by omega)) (hnone k h hk)
  · exact h
  · exact absurd (hfound (by omega)) (hafter _ h hle)

theorem getD_append_cons (s t : Bytes) (c : UInt8) : (s ++ c :: t).getD s.length 0 = c := by
  simp

theorem getD_append_mem {t : Bytes} {k : Nat} (h1 : s.length ≤ k) (h2 : k < (s ++ t).length) :
    (s ++ t).getD k 0 ∈ t := by
  simp_all

theorem skipZeros_skipZeros (s : Bytes) : skipZeros (skipZeros s) = skipZeros s := by
  fun_induction skipZeros s with
  | case1 d port ih => exact ih
  | case2 c d port h => rw [skipZeros, if_neg h]
  | case3 port h => exact skipZeros.eq_2 port h

theorem mem_of_mem_skipZeros (h : c ∈ skipZeros s) : c ∈ s := by
  fun_induction skipZeros s with
  | case1 d port ih => exact mem_cons_of_mem _ (ih h)
  | case2 | case3 => exact h

theorem portOf_pos {slice : Bytes} (h : 0 ≤ portOf slice) :
    0 < portOf slice ∧ toIntegerSafe 32 (skipZeros slice) = some (portOf slice) := by
  unfold portOf at h ⊢
  cases hinteger : toIntegerSafe 32 (skipZeros slice) with
  | none => simp [hinteger] at h
  | some port =>
    simp only [hinteger] at h ⊢
    split at h
    · exact absurd h (by decide)
    · rename_i hne
      rw [if_neg hne]
      exact ⟨by omega, rfl⟩

theorem readPort_spec {before : Bytes} {port : Int} (h : readPort data = (port, before)) (hport : 0 ≤ port) :
    port = 0 ∧ before = data ∨
      0 < port ∧ ∃ slice, data = before ++ chr ':' :: slice ∧ before ≠ [] ∧ (∀ c ∈ slice, ¬ StopsPort c) ∧
        toIntegerSafe 32 (skipZeros slice) = some port := by
  obtain ⟨hle, -, hnone⟩ := colonLoop_spec data (data.length - 1)
  unfold readPort at h
  generalize colonLoop data (data.length - 1) = colon at h hle hnone
  by_cases hcolon : colon > 0 ∧ data.getD colon 0 = chr ':'
  · rw [if_pos hcolon] at h
    obtain ⟨hport', hbefore⟩ := Prod.mk.inj h
    have hlt : colon < data.length := by omega
    have hdata : data = before ++ chr ':' :: data.drop (colon + 1) := by
      rw [← hbefore, ← hcolon.2, getD_eq_getElem _ _ hlt, ← drop_eq_getElem_cons hlt,
        take_append_drop]
    obtain ⟨hpos, hinteger⟩ := portOf_pos (hport'.symm ▸ hport)
    rw [hport'] at hpos hinteger
    refine .inr ⟨hpos, _, hdata, ?_, fun c hc => ?_, hinteger⟩
    · rw [← hbefore, ne_eq, take_eq_nil_iff]
      rintro (h | h)
      · omega
      · rw [h] at hlt
        simp at hlt
    · obtain ⟨k, hk, rfl⟩ := mem_iff_getElem.mp hc
      rw [length_drop] at hk
      rw [getElem_drop]
      have := hnone (colon + 1 + k) (by omega) (by omega)
      rwa [getD_eq_getElem _ _ (by omega)] at this
  · rw [if_neg hcolon] at h
    obtain ⟨rfl, rfl⟩ := Prod.mk.inj h
    exact .inl ⟨rfl, rfl⟩

theorem readPort_append {before slice : Bytes} {port : Int} (hbefore : before ≠ [])
    (hslice : ∀ c ∈ slice, ¬ StopsPort c)
    (hinteger : toIntegerSafe 32 (skipZeros slice) = some port) (hport : port ≠ 0) :
    readPort (before ++ chr ':' :: slice) = (port, before) := by
  have hcolon : colonLoop (before ++ chr ':' :: slice) ((before ++ chr ':' :: slice).length - 1) = before.length := by
    refine colonLoop_eq (by simp) (fun _ => by rw [getD_append_cons]; exact .inl rfl) fun j h1 h2 => ?_
    have hmem : (before ++ [chr ':'] ++ slice).getD j 0 ∈ slice :=
      getD_append_mem (by simp; omega) (by simp at h2 ⊢; omega)
    simp_all
  have hdrop : (before ++ chr ':' :: slice).drop (before.length + 1) = slice := by
    simp
  grind [readPort, portOf, take_left]

theorem readPort_none {k : Nat} (hk : k < data.length)
    (hstop : 0 < k → StopsPort (data.getD k 0) ∧ data.getD k 0 ≠ chr ':')
    (hafter : ∀ j, k < j → j < data.length → ¬ StopsPort (data.getD j 0)) : readPort data = (0, data) := by
  have hcolon : colonLoop data (data.length - 1) = k :=
    colonLoop_eq (by omega) (fun h => (hstop h).1) fun j h1 h2 => hafter j h1 (by omega)
  rw [readPort, hcolon, if_neg fun h => (hstop h.1).2 h.2]

/-! ## User information and host -/

theorem splitUserinfo_append (h : chr '@' ∉ host) : splitUserinfo (userinfo ++ chr '@' :: host) = (userinfo, host) := by
  have hpos : ∀ c ∈ host.reverse, decide (c ≠ chr '@') = true := fun c hc => by
    rw [decide_eq_true_iff]
    rintro rfl
    exact h (mem_reverse.mp hc)
  have hhost : ((userinfo ++ chr '@' :: host).reverse.takeWhile (· ≠ chr '@')).reverse = host := by
    simp_all
  have hlength : (userinfo ++ chr '@' :: host).length - host.length - 1 = userinfo.length := by
    simp only [length_append, length_cons]
    omega
  rw [splitUserinfo, hhost, hlength, take_left]

theorem splitUserinfo_none (h : chr '@' ∉ host) : splitUserinfo host = ([], host) := by
  have hpos : ∀ c ∈ host.reverse, decide (c ≠ chr '@') = true := fun c hc => by
    rw [decide_eq_true_iff]
    rintro rfl
    exact h (mem_reverse.mp hc)
  rw [splitUserinfo, takeWhile_eq_self_iff.mpr hpos, reverse_reverse, Nat.sub_self]
  rfl

theorem splitUserinfo_spec (h : splitUserinfo data = (userinfo, host)) :
    chr '@' ∉ host ∧ (userinfo = [] ∧ host = data ∨ data = userinfo ++ chr '@' :: host) := by
  by_cases hmem : chr '@' ∈ data
  · obtain ⟨after, before, hreverse, hnot⟩ := eq_append_cons_of_mem (mem_reverse.mpr hmem)
    have hdata : data = before.reverse ++ chr '@' :: after.reverse := by
      simp_all
    have hnot : chr '@' ∉ after.reverse := fun h => hnot (mem_reverse.mp h)
    rw [hdata, splitUserinfo_append hnot] at h
    obtain ⟨rfl, rfl⟩ := Prod.mk.inj h
    exact ⟨hnot, .inr hdata⟩
  · rw [splitUserinfo_none hmem] at h
    obtain ⟨rfl, rfl⟩ := Prod.mk.inj h
    exact ⟨hmem, .inl ⟨rfl, rfl⟩⟩

theorem checkUrlPart_spec {name : String} {part : Bytes} {u : Unit} (h : checkUrlPart name false part = .ok u) :
    ∀ c ∈ part, ¬ StopsPort c := by
  have hchar : ∀ c, isUrlCharacter c = true ∨ isHexDigit c = true ∨ c = chr '%' ∨ c.toNat ≥ 128 → ¬ StopsPort c := by
    refine forall_byte ?_
    decide +kernel
  fun_induction checkUrlPart name false part with
  | case1 => simp
  | case2 c part hc ih =>
    simp_all
  | case3 c1 c2 part hhex hc ih =>
    simp_all
  | case6 c part hc hpercent hbig ih =>
    simp_all
  | _ => cases h

variable {inetPton : Bytes → Bool} {url : Bytes} {defaultProtocol : Protocol} {h : HttpUrl}

theorem bracketed_toLower : Bracketed (toLower host) ↔ Bracketed host := by
  rw [Bracketed, Bracketed, ne_eq, toLower_eq_nil, head?_toLower (by decide), getLast?_toLower (by decide)]

/-- The cuts of `parse_url` and what it checks of the parts. -/
theorem parseUrl_ok_iff : parseUrl inetPton url defaultProtocol = .ok h ↔
    ∃ protocol data userinfoHostPort query port userinfoHost userinfo host,
      readProtocol url defaultProtocol = .ok (protocol, data) ∧
      readTillNofail (ascii "/?#") data = (userinfoHostPort, query) ∧
      readPort userinfoHostPort = (port, userinfoHost) ∧ (0 ≤ port ∧ port ≤ 65535) ∧
      splitUserinfo userinfoHost = (userinfo, host) ∧
      (Bracketed host → initIpv6Port inetPton host = true) ∧ host ≠ [] ∧ host ≠ ascii "." ∧
      checkParts (decide (Bracketed host)) (toLower host) userinfo = .ok () ∧
      h = { protocol, userinfo, host := toLower host, isIpv6 := decide (Bracketed host), specifiedPort := port,
            port := if port = 0 then defaultPort protocol else port, query := normalizeQuery query } := by
  rw [parseUrl, bind_ok_iff]
  constructor
  · rintro ⟨⟨protocol, data⟩, hprotocol, hrest⟩
    simp only [bind_ok_iff, ensure_ok_iff, pure_def, Outcome.ok.injEq, exists_const] at hrest
    obtain ⟨hport, hipv6, hempty, hdot, u, hparts, hh⟩ := hrest
    exact ⟨protocol, data, _, _, _, _, _, _, hprotocol, rfl, rfl, hport, rfl, hipv6, hempty, hdot, hparts, hh.symm⟩
  · rintro ⟨protocol, data, uhp, query, port, uh, userinfo, host, hprotocol, htill, hread, hport, hsplit, hipv6,
      hempty, hdot, hparts, rfl⟩
    refine ⟨(protocol, data), hprotocol, ?_⟩
    simp_all

/-! ## Reading it back -/

theorem readProtocol_scheme (protocol defaultProtocol : Protocol) (rest : Bytes) :
    readProtocol (scheme protocol ++ rest) defaultProtocol = .ok (protocol, rest) := by
  have hread : ∀ name : Bytes, (∀ c ∈ name, c ∉ ascii ":/?#@[]") →
      readTillNofail (ascii ":/?#@[]") (name ++ (ascii "://" ++ rest)) = (name, ascii "://" ++ rest) :=
    fun name hname => readTillNofail_eq hname fun c hc => by
      obtain rfl : chr ':' = c := Option.some.inj hc
      decide
  have hskip : trySkip (ascii "://") (ascii "://" ++ rest) = some rest := rfl
  cases protocol with
  | http =>
    rw [show scheme .http ++ rest = ascii "http" ++ (ascii "://" ++ rest) from rfl, readProtocol,
      hread _ (forall_mem_of_all (by decide))]
    rfl
  | https =>
    rw [show scheme .https ++ rest = ascii "https" ++ (ascii "://" ++ rest) from rfl, readProtocol,
      hread _ (forall_mem_of_all (by decide))]
    rfl

/-- The user information and the host, as `get_url` writes them. -/
def userinfoAndHost (userinfo host : Bytes) : Bytes := (if userinfo ≠ [] then userinfo ++ ascii "@" else []) ++ host

theorem userinfoAndHost_cases (userinfo host : Bytes) : userinfo = [] ∧ userinfoAndHost userinfo host = host ∨
      userinfo ≠ [] ∧ userinfoAndHost userinfo host = userinfo ++ chr '@' :: host := by
  by_cases h : userinfo = []
  · exact .inl ⟨h, by simp [userinfoAndHost, h]⟩
  · exact .inr ⟨h, by simp [userinfoAndHost, h, ascii]⟩

theorem splitUserinfo_userinfoAndHost (h : chr '@' ∉ host) :
    splitUserinfo (userinfoAndHost userinfo host) = (userinfo, host) := by
  rcases userinfoAndHost_cases userinfo host with ⟨hu, heq⟩ | ⟨-, heq⟩
  · rw [heq, splitUserinfo_none h, hu]
  · rw [heq, splitUserinfo_append h]

theorem userinfoAndHost_ne_nil (h : host ≠ []) : userinfoAndHost userinfo host ≠ [] := by
  simp [userinfoAndHost, h]

/-- No port is read where `get_url` has written none. -/
theorem readPort_userinfoAndHost (hhost : host ≠ [])
    (hstops : host.getLast? = some (chr ']') ∨ ∀ c ∈ host, ¬ StopsPort c) :
    readPort (userinfoAndHost userinfo host) = (0, userinfoAndHost userinfo host) := by
  rcases hstops with hlast | hnone
  · have hlast' : (userinfoAndHost userinfo host).getLast? = some (chr ']') := by
      rw [userinfoAndHost, List.getLast?_append, hlast]
      rfl
    have hne : userinfoAndHost userinfo host ≠ [] := userinfoAndHost_ne_nil hhost
    have hpos := length_pos_iff.mpr hne
    have hget : (userinfoAndHost userinfo host).getD ((userinfoAndHost userinfo host).length - 1) 0 = chr ']' := by
      rw [getD_eq_getElem?_getD, ← List.getLast?_eq_getElem?, hlast']
      rfl
    refine readPort_none (k := (userinfoAndHost userinfo host).length - 1) (by omega) (fun _ => ?_)
      fun j h1 h2 => by omega
    rw [hget]
    exact ⟨.inr (.inl rfl), by decide⟩
  · rcases userinfoAndHost_cases userinfo host with ⟨-, heq⟩ | ⟨hu, heq⟩
    · rw [heq]
      refine readPort_none (k := 0) (length_pos_iff.mpr hhost) (fun h => absurd h (lt_irrefl _)) fun j _ hj => ?_
      simp_all
    · rw [heq]
      refine readPort_none (k := userinfo.length) (by simp) (fun _ => ?_) fun j h1 h2 => ?_
      · rw [getD_append_cons]
        exact ⟨.inr (.inr rfl), by decide⟩
      · have hmem : (userinfo ++ [chr '@'] ++ host).getD j 0 ∈ host :=
          getD_append_mem (by simp; omega) (by simp at h2 ⊢; omega)
        simp_all

theorem toIntegerSafe_eq_some {bits : Nat} {x : Int} (h : toIntegerSafe bits s = some x) : decimal x = s := by
  unfold toIntegerSafe at h
  dsimp only at h
  split at h
  · rename_i heq
    exact Option.some.inj h ▸ heq
  · cases h

theorem checkParts_stops {u : Unit} (h : checkParts (decide (Bracketed host)) (toLower host) userinfo = .ok u) :
    (toLower host).getLast? = some (chr ']') ∨ ∀ c ∈ toLower host, ¬ StopsPort c := by
  by_cases hbracketed : Bracketed host
  · exact .inl ((getLast?_toLower (by decide)).mpr hbracketed.2.2)
  · rw [checkParts, if_neg (by simpa using hbracketed), bind_ok_iff] at h
    obtain ⟨_, hhost, -⟩ := h
    exact .inr (checkUrlPart_spec hhost)

/-- What `get_url` writes between the scheme and the query. -/
def authority (userinfo host : Bytes) (port : Int) : Bytes :=
  userinfoAndHost userinfo host ++ if port > 0 then chr ':' :: decimal port else []

theorem getUrl_eq (hquery : h.query.head? = some (chr '/')) :
    h.getUrl = .ok (scheme h.protocol ++ (authority h.userinfo h.host h.specifiedPort ++ h.query)) := by
  have hne : h.query ≠ [] := by
    intro hnil
    rw [hnil] at hquery
    cases hquery
  rw [HttpUrl.getUrl, check_true ⟨hne, hquery⟩]
  by_cases hu : h.userinfo = [] <;> by_cases hp : h.specifiedPort > 0 <;>
    simp [authority, userinfoAndHost, hu, hp, ascii]

section

variable {data before userinfo host : Bytes} {port : Int} (hread : readPort data = (port, before)) (hport : 0 ≤ port)

include hread hport

/-- The port of an accepted URL is read back from what is written. -/
theorem readPort_authority (hhost : host ≠ []) (hstops : host.getLast? = some (chr ']') ∨ ∀ c ∈ host, ¬ StopsPort c) :
    readPort (authority userinfo host port) = (port, userinfoAndHost userinfo host) := by
  rcases readPort_spec hread hport with ⟨rfl, -⟩ | ⟨hpos, slice, -, -, hslice, hinteger⟩
  · rw [authority, if_neg (lt_irrefl _), append_nil]
    exact readPort_userinfoAndHost hhost hstops
  · have hdecimal := toIntegerSafe_eq_some hinteger
    rw [authority, if_pos hpos, hdecimal]
    refine readPort_append (userinfoAndHost_ne_nil hhost) (fun c hc => hslice c (mem_of_mem_skipZeros hc)) ?_ hpos.ne'
    rw [skipZeros_skipZeros, hinteger]

/-- Every character of what is written was there, up to lower case. -/
theorem not_slash_authority (hsplit : splitUserinfo before = (userinfo, host)) (hslash : ∀ c ∈ data, c ∉ ascii "/?#") :
    ∀ c ∈ authority userinfo (toLower host) port, c ∉ ascii "/?#" := by
  have hbefore : ∀ c ∈ before, c ∉ ascii "/?#" := fun c hc => by
    rcases readPort_spec hread hport with ⟨-, rfl⟩ | ⟨-, slice, rfl, -⟩
    · exact hslash c hc
    · exact hslash c (mem_append_left _ hc)
  have hparts : (∀ c ∈ userinfo, c ∉ ascii "/?#") ∧ ∀ c ∈ host, c ∉ ascii "/?#" := by
    rcases (splitUserinfo_spec hsplit).2 with ⟨rfl, rfl⟩ | rfl
    · exact ⟨by simp, hbefore⟩
    · simp_all
  have hlower : ∀ c ∈ toLower host, c ∉ ascii "/?#" := fun c hc hmem => by
    have hsub : ∀ d ∈ ascii "/?#", d ∈ ascii "/?#@[]:." := forall_mem_of_all (by decide)
    exact hparts.2 c ((mem_toLower (hsub c hmem)).mp hc) hmem
  intro c hc
  rcases mem_append.mp hc with hc | hc
  · rcases userinfoAndHost_cases userinfo (toLower host) with ⟨-, heq⟩ | ⟨-, heq⟩
    · exact hlower c (heq ▸ hc)
    · rw [heq, mem_append, mem_cons] at hc
      rcases hc with hc | rfl | hc
      · exact hparts.1 c hc
      · decide
      · exact hlower c hc
  · rcases readPort_spec hread hport with ⟨rfl, -⟩ | ⟨hpos, slice, rfl, -, -, hinteger⟩
    · simp at hc
    · rw [if_pos hpos, toIntegerSafe_eq_some hinteger, mem_cons] at hc
      rcases hc with rfl | hc
      · decide
      · exact hslash c (mem_append_right _ (mem_cons_of_mem _ (mem_of_mem_skipZeros hc)))

end

/-- `get_url` is a canonical form: what it writes for an accepted URL is accepted
again, and is the same URL. -/
theorem parseUrl_getUrl (inetPton : Bytes → Bool) {url : Bytes} {defaultProtocol : Protocol} {h : HttpUrl}
    (hcase : ∀ host, Bracketed host → initIpv6Port inetPton (toLower host) = initIpv6Port inetPton host)
    (hparse : parseUrl inetPton url defaultProtocol = .ok h) : ∃ canonical, h.getUrl = .ok canonical ∧
      ∀ defaultProtocol', parseUrl inetPton canonical defaultProtocol' = .ok h := by
  obtain ⟨protocol, data, userinfoHostPort, query, port, userinfoHost, userinfo, host, hprotocol, htill, hread, hport,
    hsplit, hipv6, hempty, hdot, hparts, rfl⟩ := parseUrl_ok_iff.mp hparse
  have hslash : ∀ c ∈ userinfoHostPort, c ∉ ascii "/?#" := by
    have := (readTillNofail_spec (ascii "/?#") data).2.1
    rwa [htill] at this
  obtain ⟨hhead, hquery⟩ := normalizeQuery_spec query
  have hlower : toLower host ≠ [] := fun hnil => hempty (toLower_eq_nil.mp hnil)
  have hat : chr '@' ∉ toLower host := fun hmem =>
    (splitUserinfo_spec hsplit).1 ((mem_toLower (by decide)).mp hmem)
  have hbracketed : decide (Bracketed (toLower host)) = decide (Bracketed host) :=
    decide_eq_decide.mpr bracketed_toLower
  refine ⟨_, getUrl_eq hhead, fun defaultProtocol' => parseUrl_ok_iff.mpr
    ⟨protocol, _, _, normalizeQuery query, port, _, userinfo, toLower host, readProtocol_scheme _ _ _,
      readTillNofail_eq (not_slash_authority hread hport.1 hsplit hslash) ?_,
      readPort_authority hread hport.1 hlower (checkParts_stops hparts), hport,
      splitUserinfo_userinfoAndHost hat, ?_, hlower, ?_, ?_, ?_⟩⟩
  · intro c hc
    rw [hhead] at hc
    obtain rfl := Option.some.inj hc
    decide
  · intro hb
    simp_all
  · exact fun heq => hdot (toLower_eq_dot.mp heq)
  · rw [hbracketed, toLower_toLower, hparts]
  · rw [hbracketed, toLower_toLower, normalizeQuery_eq hhead hquery]

/-- A URL in upper case, with user information, an IPv6 address, zeros before the
port and no path. -/
def mixedUrl : Bytes := ascii "HTTP://User:x@[::AB]:0080?q "

def mixedHttpUrl : HttpUrl where
  protocol := .http
  userinfo := ascii "User:x"
  host := ascii "[::ab]"
  isIpv6 := true
  specifiedPort := 80
  port := 80
  query := ascii "/?q"

/-- Its canonical form is `http://User:x@[::ab]:80/?q`, with any `inet_pton` that
takes the address. -/
theorem parseUrl_getUrl_mixed : parseUrl (fun _ => true) mixedUrl .https = .ok mixedHttpUrl ∧
      ∃ canonical, mixedHttpUrl.getUrl = .ok canonical ∧
        ∀ defaultProtocol', parseUrl (fun _ => true) canonical defaultProtocol' = .ok mixedHttpUrl := by
  have hparse : parseUrl (fun _ => true) mixedUrl .https = .ok mixedHttpUrl := by decide +kernel
  exact ⟨hparse, parseUrl_getUrl (fun _ => true) (fun _ _ => rfl) hparse⟩

end Tdlib.Url
