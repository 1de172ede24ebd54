/-! The reserved words. A run of characters is reserved if it spells an entry of the table, whatever
the case of its letters. -/
namespace SqlStyle.Reserved
set_option autoImplicit false

/-- The words that are keywords wherever they stand alone. -/
def keywords : List String := [
  "ALL", "AND", "ANY", "ARRAY", "AS", "ASC", "ASSERT_ROWS_MODIFIED", "AT", "BETWEEN", "BY", "CASE",
  "COLLATE", "CONTAINS", "CREATE", "CUBE", "CURRENT", "DEFAULT", "DEFINE", "DESC", "DISTINCT",
  "ELSE", "END", "ENUM", "ESCAPE", "EXCEPT", "EXCLUDE", "EXISTS", "EXTRACT", "FALSE", "FETCH",
  "FOLLOWING", "FOR", "FROM", "GROUP", "GROUPING", "GROUPS", "HASH", "HAVING", "IGNORE", "IN",
  "INTERSECT", "INTERVAL", "INTO", "IS", "JOIN", "LATERAL", "LIKE", "LIMIT", "LOOKUP", "MERGE",
  "NATURAL", "NEW", "NO", "NOT", "NULL", "NULLS", "OF", "ON", "OR", "ORDER", "OVER", "PARTITION",
  "PRECEDING", "PROTO", "RANGE", "RECURSIVE", "RESPECT", "ROWS", "SELECT", "SET", "SOME", "STRUCT",
  "TABLESAMPLE", "THEN", "TO", "TREAT", "TRUE", "UNBOUNDED", "UNION", "UNNEST", "WHEN", "WHERE",
  "WINDOW", "WITH", "WITHIN", "FULL", "LEFT", "RIGHT", "OUTER", "CROSS", "INNER", "DECLEAR",
  "BEGIN,", "IF", "LOOP", "WHILE", "BREAK", "LEAVE", "CONTINUE", "ITERATE", "RETURN", "CALLTEMP",
  "TEMPORARY", "RETURNS", "LANGUAGE"]

/-- The words that are functions if a left bracket follows. -/
def functions : List String := [
  "ANY_VALUE", "ARRAY_AGG", "ARRAY_CONCAT_AGG", "AVG", "BIT_AND", "BIT_OR", "BIT_XOR", "COUNT",
  "COUNTIF", "LOGICAL_AND", "LOGICAL_OR", "MAX", "MIN", "STRING_AGG", "SUM", "CORR", "COVAR_POP",
  "COVAR_SAMP", "STDDEV_POP", "STDDEV_SAMP", "STDDEV", "VAR_POP", "VAR_SAMP", "VARIANCE",
  "APPROX_COUNT_DISTINCT", "APPROX_QUANTILES", "APPROX_TOP_COUNT", "APPROX_TOP_SUM", "RANK",
  "DENSE_RANK", "PERCENT_RANK", "CUME_DIST", "NTILE", "ROW_NUMBER", "BIT_COUNT", "ABS", "SIGN",
  "IS_INF", "IS_NAN", "IEEE_DIVIDE", "RAND", "SQRT", "POW", "POWER", "EXP", "LN", "LOG", "LOG10",
  "GREATEST", "LEAST", "DIV", "SAFE_DIVIDE", "MOD", "ROUND", "TRUNC", "CEIL", "CEILING", "FLOOR",
  "COS", "COSH", "ACOS", "ACOSH", "SIN", "SINH", "ASIN", "ASINH", "TAN", "TANH", "ATAN", "ATANH",
  "ATAN2", "FIRST_VALUE", "LAST_VALUE", "NTH_VALUE", "LEAD", "LAG", "PERCENTILE_CONT",
  "PERCENTILE_DISC", "FARM_FINGERPRINT", "MD5", "SHA1", "SHA256", "SHA512", "BYTE_LENGTH",
  "CHAR_LENGTH", "CHARACTER_LENGTH", "CODE_POINTS_TO_BYTES", "CODE_POINTS_TO_STRING", "CONCAT",
  "ENDS_WITH", "FORMAT", "FROM_BASE32", "FROM_BASE64", "FROM_HEX", "LENGTH", "LPAD", "LOWER",
  "LTRIM", "NORMALIZE", "NORMALIZE_AND_CASEFOLD", "REGEXP_CONTAINS", "REGEXP_EXTRACT",
  "REGEXP_EXTRACT_ALL", "REGEXP_REPLACE", "REPLACE", "REPEAT", "REVERSE", "RPAD", "RTRIM",
  "SAFE_CONVERT_BYTES_TO_STRING", "SPLIT", "STARTS_WITH", "STRPOS", "SUBSTR", "TO_BASE32",
  "TO_BASE64", "TO_CODE_POINTS", "TO_HEX", "TRIM", "UPPER", "JSON_EXTRACT", "JSON_EXTRACT_SCALAR",
  "TO_JSON_STRING", "ARRAY", "ARRAY_CONCAT", "ARRAY_LENGTH", "ARRAY_TO_STRING", "GENERATE_ARRAY",
  "GENERATE_DATE_ARRAY", "GENERATE_TIMESTAMP_ARRAY", "ARRAY_REVERSE", "SAFE_OFFSET",
  "SAFE_ORDINAL", "CURRENT_DATE", "EXTRACT", "DATE", "DATE_ADD", "DATE_SUB", "DATE_DIFF",
  "DATE_TRUNC", "DATE_FROM_UNIX_DATE", "FORMAT_DATE", "PARSE_DATE", "UNIX_DATE",
  "CURRENT_DATETIME", "DATETIME", "DATETIME_ADD", "DATETIME_SUB", "DATETIME_DIFF",
  "DATETIME_TRUNC", "FORMAT_DATETIME", "PARSE_DATETIME", "CURRENT_TIME", "TIME", "TIME_ADD",
  "TIME_DIFF", "TIME_TRUNC", "FORMAT_TIME", "PARSE_TIME", "CURRENT_TIMESTAMP", "STRING",
  "TIMESTAMP", "TIMESTAMP_ADD", "TIMESTAMP_SUB", "TIMESTAMP_DIFF", "TIMESTAMP_TRUNC",
  "FORMAT_TIMESTAMP", "PARSE_TIMESTAMP", "TIMESTAMP_SECONDS", "TIMESTAMP_MILLIS",
  "TIMESTAMP_MICROS", "UNIX_SECONDS", "UNIX_MILLIS", "UNIX_MICROS", "SESSION_USER", "CASTIF",
  "ROLLUP", "USING"]

/-! ## Spelling -/

/-- The letter that a character stands for in a reserved word: its capital. The long s, the Kelvin
sign, and i with or without a dot are read as the letters they look like. -/
def letter (c : Char) : Char :=
  if c = 'ſ' then 'S'
  else if c = '\u212a' then 'K'
  else if c = 'İ' ∨ c = 'ı' then 'I'
  else c.toUpper

/-- The entry that a run of characters would spell. -/
def spelling (run : List Char) : String :=
  String.ofList (run.map letter)

def isKeyword (run : List Char) : Bool :=
  keywords.contains (spelling run)

def isFunction (run : List Char) : Bool :=
  functions.contains (spelling run)

/-! ## Entries at the beginning of a text -/

/-- The letters of an entry. Entries are written in plain letters, each of them one byte. -/
def letters (entry : String) : List Char :=
  entry.toUTF8.data.toList.map fun b => Char.ofNat b.toNat

/-- The characters at the beginning of a text that spell the given letters, and the text behind them. -/
def reading? : List Char → List Char → Option (List Char × List Char)
  | [], text => some ([], text)
  | _ :: _, [] => none
  | e :: es, c :: cs =>
    if letter c = e then (reading? es cs).map fun r => (c :: r.1, r.2) else none

/-- The entries of a table that a text begins with, in the order of the table: for each of them the
characters that spell it, and the text behind them. -/
def readings (table : List String) (text : List Char) : List (List Char × List Char) :=
  table.filterMap fun entry => reading? (letters entry) text

theorem reading?_eq_some_iff (es text run rest : List Char) :
    reading? es text = some (run, rest) ↔ run ++ rest = text ∧ run.map letter = es := by
  fun_induction reading? es text generalizing run rest with
  | case1 text =>
    rw [Option.some.injEq, Prod.mk.injEq, List.map_eq_nil_iff]
    constructor
    · rintro ⟨rfl, rfl⟩
      exact ⟨rfl, rfl⟩
    · rintro ⟨rfl, rfl⟩
      exact ⟨rfl, rfl⟩
  | case2 e es =>
    refine iff_of_false (by simp) ?_
    rintro ⟨htext, hspelled⟩
    obtain ⟨rfl, -⟩ := List.append_eq_nil_iff.1 htext
    cases hspelled
  | case3 es c cs ih =>
    rw [Option.map_eq_some_iff]
    constructor
    · rintro ⟨⟨more, behind⟩, hmore, hr⟩
      obtain ⟨rfl, rfl⟩ := Prod.mk.inj hr
      obtain ⟨htext, hspelled⟩ := (ih more behind).1 hmore
      exact ⟨congrArg (c :: ·) htext, by rw [List.map_cons, hspelled]⟩
    · rintro ⟨htext, hspelled⟩
      obtain ⟨d, more, rfl, hd, hmore⟩ := List.map_eq_cons_iff.1 hspelled
      obtain ⟨rfl, htail⟩ := List.cons.inj htext
      exact ⟨(more, rest), (ih more rest).2 ⟨htail, hmore⟩, rfl⟩
  | case4 e es c cs hletter =>
    refine iff_of_false (by simp) ?_
    rintro ⟨htext, hspelled⟩
    obtain ⟨d, more, rfl, hd, -⟩ := List.map_eq_cons_iff.1 hspelled
    obtain ⟨rfl, -⟩ := List.cons.inj htext
    exact hletter hd

theorem mem_readings (table : List String) (text run rest : List Char) :
    (run, rest) ∈ readings table text ↔
      run ++ rest = text ∧ ∃ entry ∈ table, run.map letter = letters entry := by
  simp only [readings, List.mem_filterMap, reading?_eq_some_iff]
  constructor
  · rintro ⟨entry, hentry, htext, hspelled⟩
    exact ⟨htext, entry, hentry, hspelled⟩
  · rintro ⟨htext, entry, hentry, hspelled⟩
    exact ⟨entry, hentry, htext, hspelled⟩

theorem letters_ne_nil : ∀ entry ∈ keywords ++ functions, letters entry ≠ [] := by
  decide +kernel

theorem length_lt_of_mem_readings (table : List String) (htable : table ⊆ keywords ++ functions)
    (text run rest : List Char) (h : (run, rest) ∈ readings table text) :
    rest.length < text.length := by
  obtain ⟨rfl, entry, hentry, hspelled⟩ := (mem_readings table text run rest).1 h
  have hne : run ≠ [] := by
    rintro rfl
    exact letters_ne_nil entry (htable hentry) hspelled.symm
  have hpos := List.length_pos_iff.2 hne
  rw [List.length_append]
  omega

end SqlStyle.Reserved
