/-!
# Stop words

Words that say little about what a text is about: they are not counted when sentences are compared.
-/

namespace Transclude.Digest

def englishStopWords : List String := [
  "a", "an", "the", "and", "or", "but", "so", "yet", "for", "as", "if", "in", "of", "on", "at",
  "to", "by", "up", "is", "are", "was", "were", "be", "been", "being", "have", "has", "had",
  "do", "does", "did", "will", "would", "could", "should", "may", "might", "shall", "can", "not",
  "no", "nor", "just", "also", "only", "than", "too", "very", "i", "me", "my", "we", "our",
  "you", "your", "he", "him", "his", "she", "her", "it", "its", "they", "them", "their", "this",
  "that", "these", "those", "what", "which", "who", "whom", "all", "each", "both", "more",
  "most", "other", "some", "such", "same", "own", "then", "once", "here", "there", "when",
  "where", "why", "how", "any", "few", "with", "about", "into", "through", "during", "before",
  "after", "above", "below", "from", "out", "off", "over", "under", "again", "further",
  "between", "while"]

def dutchStopWords : List String := [
  "de", "het", "een", "en", "van", "is", "dat", "die", "in", "op", "te", "zijn", "met", "er",
  "aan", "voor", "niet", "ook", "als", "maar", "om", "was", "zo", "bij", "naar", "nog", "heeft",
  "uit", "dit", "door", "ze", "al", "kan", "hij", "haar", "we", "ik", "je", "u", "zij", "dan",
  "tot", "zich", "of", "over", "werd", "worden", "had", "meer", "geen", "deze", "welke", "omdat",
  "mee", "af", "hun", "zal", "men", "elk", "alle", "zelf", "reeds", "dus", "want", "toch", "wel",
  "nu", "iets", "niets", "hier", "daar", "wanneer", "waar", "waarom", "hoe", "wie", "wat"]

def languages : List String := ["en", "nl"]

def stopWords (language : String) : List String :=
  if language == "nl" then dutchStopWords else englishStopWords

end Transclude.Digest
